import PullScript.Proofs.View.Asking

namespace PullScript

open Act

variable {α β : Type} {feed : Feed} {n : Nat} {seen seen' : Reach}

variable {b : Bound} {k : Nat} {a : Value}
variable {τ : Type} {a' x : Value} {i : Nat}

structure Bound.At (feed : Feed) (seen : Reach) (b : Bound) (places : Nat → Nat) (b' : Bound) :
    Prop where
  name_eq : b'.name = b.name
  ty_eq : b'.ty = b.ty
  length_eq : b'.args.length = b.args.length
  arg : ∀ (i : Nat) (a a' : Value), b.args[i]? = some a → b'.args[i]? = some a' →
    a.At feed seen (places i) a'

/-- A builtin whose arguments are at some places, and whose work is at the place `k`. -/
def Bound.Works (feed : Feed) (b : Bound) (task : Task Value) (seen : Reach) (k : Nat) (b' : Bound)
    (task' : Task Value) : Prop :=
  ∃ places, b.At feed seen places b' ∧ Task.At feed seen b b'.args places k task task'

def Bound.ArgOver (feed : Feed) (seen : Reach) (k : Nat) (b : Bound) : Prop :=
  ∃ a, b.args[k]? = some a ∧ a.Over feed seen

theorem Bound.ArgOver.suspend {task : Task Value} (h : b.ArgOver feed seen k) (htask : task.Follows k) :
    (b.suspend task).Over feed seen := by
  obtain ⟨a, ha, hover⟩ := h
  exact .follows b.name b.ty htask ha hover

theorem TextView.arg_eq (h : b.args[k]? = some a) : TextView.arg b k = TextView.of a := by
  simp only [arg, after, View.arg, h]
  rfl

theorem ListView.arg_eq (h : b.args[k]? = some a) : ListView.arg b k = ListView.of a := by
  simp only [arg, after, View.arg, h]
  rfl

theorem ListView.after_next {α : Type} (first : View α) (list : α → ListView) (k : Nat) :
    (ListView.after first list).next k = first >>= fun x => (list x).next k := by
  refine View.ext fun viewer => ?_
  simp only [next, after, View.run_bind]
  rcases hx : first.run viewer with _ | _ | x
  · rfl
  · rfl
  · simp only [Option.bind_some, View.andThen]
    rcases ((list x).ended k).run viewer with _ | _ | _ | _ <;> simp [View.run_bind, hx]

theorem ListView.ended_bind_next (l : ListView) (k : Nat) (atEnd : View β) (f : Option Value → View β) :
    (l.ended k >>= fun e => if e then atEnd else l.next k >>= f) = l.next k >>= fun
      | none => atEnd
      | some item => f (some item) := by
  refine View.ext fun viewer => ?_
  simp only [next, View.run_bind]
  rcases he : (l.ended k).run viewer with _ | _ | _ | _
  · rfl
  · rfl
  · simp only [Option.bind_some, View.andThen, Bool.false_eq_true, if_false, View.run_bind, he]
    rcases (l.item k).run viewer with _ | _ | item
    · rfl
    · rfl
    · rcases (l.step k).run viewer with _ | _ | _ <;> simp
  · simp

theorem Bound.onFirst_arg_of_some [Holder τ] (h : b.args[k]? = some a) (t : τ) (w : World) :
    onFirst (Bound.arg k) ((b, t), w) = .ok a ((b, t), w) :=
  onFirst_of_ok (fun _ => by simp only [Bound.arg, bind_run, look_run, h, pure_run]) t w

theorem Bound.onFirst_arg_of_none [Holder τ] (h : b.args[k]? = none) (t : τ) (w : World) :
    onFirst (Bound.arg k) ((b, t), w) = .error (.failed (.runtime (.missingArgument b.name (k + 1)))) ((b, t), w) :=
  onFirst_of_fail (fun _ => by simp only [Bound.arg, bind_run, look_run, h]) t w

namespace Bound.At

variable {b b' : Bound} {places : Nat → Nat} {k : Nat}

variable {act : Nat → Act Value α} {m : Value → View α}

section

variable (h : b.At feed seen places b')
include h

theorem mono (hseen : Further seen seen') : b.At feed seen' places b' :=
  ⟨h.name_eq, h.ty_eq, h.length_eq, fun i a a' ha ha' => (h.arg i a a' ha ha').mono hseen⟩

theorem getElem?_eq_none (hk : b.args[k]? = none) : b'.args[k]? = none := by
  rw [List.getElem?_eq_none_iff] at *
  rw [h.length_eq]
  exact hk

theorem exists_getElem? {a : Value} (hk : b.args[k]? = some a) :
    ∃ a', b'.args[k]? = some a' ∧ a.At feed seen (places k) a' := by
  obtain ⟨hlt, -⟩ := List.getElem?_eq_some_iff.1 hk
  rw [← h.length_eq] at hlt
  exact ⟨b'.args[k], List.getElem?_eq_getElem hlt, h.arg k a _ hk (List.getElem?_eq_getElem hlt)⟩

theorem exists_original (hk : b'.args[k]? = some a') :
    ∃ a, b.args[k]? = some a ∧ a.At feed seen (places k) a' := by
  obtain ⟨hlt, -⟩ := List.getElem?_eq_some_iff.1 hk
  rw [h.length_eq] at hlt
  exact ⟨b.args[k], List.getElem?_eq_getElem hlt, h.arg k _ a' (List.getElem?_eq_getElem hlt) hk⟩

theorem set (hseen : Further seen seen') {a : Value} (hk : b.args[k]? = some a) (ha : a.At feed seen' i a') :
    b.At feed seen' (Function.update places k i) { b' with args := b'.args.set k a' } where
  name_eq := h.name_eq
  ty_eq := h.ty_eq
  length_eq := by
    rw [List.length_set]
    exact h.length_eq
  arg j c c' hc hc' := by
    by_cases hj : j = k
    · subst hj
      obtain rfl := Option.some.inj (hk.symm.trans hc)
      obtain ⟨a₁, ha₁, -⟩ := h.exists_getElem? hk
      obtain rfl : a' = c' := by
        rw [List.getElem?_set_self (List.getElem?_eq_some_iff.1 ha₁).1] at hc'
        exact Option.some.inj hc'
      rw [Function.update_self]
      exact ha
    · rw [List.getElem?_set_ne (Ne.symm hj)] at hc'
      rw [Function.update_of_ne hj]
      exact (h.arg j c c' hc hc').mono hseen

end

section

variable (hb : b.At feed seen places b')
include hb

theorem onArg {m : Value → View β} {N : Reach → β → α → Nat → Value → Bytes → Prop}
    (h : ∀ a a', b.args[k]? = some a → a.At feed seen (places k) a' → Tracks feed n seen a' act (m a)
      fun seen' x y v bytes => ∃ i, a.At feed seen' i v ∧ N seen' x y i v bytes) :
    Tracks feed n seen b' (fun f => Bound.on k (act f)) (View.arg b k >>= m)
      fun seen' x y b'' bytes => ∃ i v, b.At feed seen' (Function.update places k i) b'' ∧
        b''.args[k]? = some v ∧ N seen' x y i v bytes := by
  cases hk : b.args[k]? with
  | none =>
    refine .ofFail (View.fails_arg hk).bind fun w _ => ⟨(b', w), fun f => ?_⟩
    simp only [Bound.on, Bound.arg, bind_run, look_run, hb.getElem?_eq_none hk, fail_run, hb.name_eq]
  | some a =>
    obtain ⟨a', hk', ha⟩ := hb.exists_getElem? hk
    refine .known (View.gives_arg_iff.2 hk) ?_
    have hwithin : Tracks feed n seen b'
        (fun f => within a' (fun value => { b' with args := b'.args.set k value }) (act f)) (m a) _ :=
      Tracks.within (h a a' hk ha)
    refine (hwithin.congr fun f w => ?_).imp ?_
    · simp only [Bound.on, Bound.arg, bind_run, look_run, hk', pure_run]
    · rintro seen' x y _ bytes hfurther - ⟨v, rfl, i, hv, hN⟩
      have hlt := (List.getElem?_eq_some_iff.1 hk').1
      exact ⟨i, v, hb.set hfurther hk hv, List.getElem?_set_self hlt, hN⟩

theorem on {m : Value → View β} {N : Reach → β → α → Nat → Bytes → Prop}
    (h : ∀ a a', b.args[k]? = some a → a.At feed seen (places k) a' → Tracks feed n seen a' act (m a)
      fun seen' x y v bytes => ∃ i, a.At feed seen' i v ∧ N seen' x y i bytes) :
    Tracks feed n seen b' (fun f => Bound.on k (act f)) (View.arg b k >>= m)
      fun seen' x y b'' bytes =>
        ∃ i, b.At feed seen' (Function.update places k i) b'' ∧ N seen' x y i bytes :=
  (hb.onArg (N := fun seen' x y i _ bytes => N seen' x y i bytes) h).imp
    fun _ _ _ _ _ _ _ ⟨i, _, hb'', _, hN⟩ => ⟨i, hb'', hN⟩

/-- Work on an argument that answers just what is seen, the answer saying which place it leads to and
what else is known of the argument then. -/
theorem tellsArg (j : α → Nat) {R : Reach → α → Value → Prop}
    (h : ∀ a a', b.args[k]? = some a → a.At feed seen (places k) a' → Tells feed n seen a' act (m a)
      fun seen' x v => a.At feed seen' (j x) v ∧ R seen' x v) :
    Tells feed n seen b' (fun f => Bound.on k (act f)) (View.arg b k >>= m)
      fun seen' x b'' => b.At feed seen' (Function.update places k (j x)) b'' ∧
        ∃ v, b''.args[k]? = some v ∧ R seen' x v := by
  have hon := hb.onArg (N := fun seen' x y i v bytes => y = x ∧ bytes = [] ∧ i = j x ∧ R seen' x v) fun a a' hk ha => by
    refine Tracks.imp (h a a' hk ha) ?_
    rintro seen' x _ v _ - - ⟨rfl, rfl, hv, hR⟩
    exact ⟨j _, hv, rfl, rfl, rfl, hR⟩
  refine Tracks.imp hon ?_
  rintro seen' x y b'' bytes - - ⟨i, v, hb'', hv, rfl, rfl, rfl, hR⟩
  exact ⟨rfl, rfl, hb'', v, hv, hR⟩

theorem tells (j : α → Nat)
    (h : ∀ a a', b.args[k]? = some a → a.At feed seen (places k) a' → Tells feed n seen a' act (m a)
      fun seen' x v => a.At feed seen' (j x) v) :
    Tells feed n seen b' (fun f => Bound.on k (act f)) (View.arg b k >>= m)
      fun seen' x b'' => b.At feed seen' (Function.update places k (j x)) b'' :=
  (hb.tellsArg j (R := fun _ _ _ => True) fun a a' ha hat =>
    (h a a' ha hat).imp fun _ _ _ _ _ hv => ⟨hv, trivial⟩).imp fun _ _ _ _ _ hb'' => hb''.1

theorem tellsSome (h : ∀ a a', b.args[k]? = some a → a.At feed seen (places k) a' → Tells feed n seen a' act (m a)
      fun seen' _ v => ∃ i, a.At feed seen' i v) :
    Tells feed n seen b' (fun f => Bound.on k (act f)) (View.arg b k >>= m)
      fun seen' _ b'' => ∃ i, b.At feed seen' (Function.update places k i) b'' := by
  have hon := hb.on (N := fun _ x y _ bytes => y = x ∧ bytes = []) fun a a' hk ha => by
    refine Tracks.imp (h a a' hk ha) ?_
    rintro seen' x _ v _ - - ⟨rfl, rfl, i, hv⟩
    exact ⟨i, hv, rfl, rfl⟩
  refine Tracks.imp hon ?_
  rintro seen' x y b'' bytes - - ⟨i, hb'', rfl, rfl⟩
  exact ⟨rfl, rfl, i, hb''⟩

theorem tellsThere (h : ∀ a a', b.args[k]? = some a → a.At feed seen (places k) a' → Tells feed n seen a' act (m a)
      fun seen' _ v => a.At feed seen' (places k) v) :
    Tells feed n seen b' (fun f => Bound.on k (act f)) (View.arg b k >>= m)
      fun seen' _ b'' => b.At feed seen' places b'' := by
  refine (hb.tells (fun _ => places k) h).imp fun seen' _ b'' _ _ hb'' => ?_
  rwa [Function.update_eq_self] at hb''

end

end Bound.At

namespace Pulls

variable {b b' : Bound} {places : Nat → Nat} {k : Nat}

section

variable (h : Pulls feed n) (hargs : b.Unpulled) (hb : b.At feed seen places b')
include h hargs hb

theorem numberArg (hk : places k = 0) :
    Tells feed n seen b' (fun f => Bound.on k (puller f).number) (View.argNumber b k)
      fun seen' _ b'' => b.At feed seen' places b'' :=
  hb.tellsThere fun a a' ha hat => by
    rw [hk] at *
    exact h.number (hargs.getElem? ha) hat

theorem countArg (hk : places k = 0) :
    Tells feed n seen b' (fun f => PullScript.countArg (puller f) k) (View.argCount b k)
      fun seen' _ b'' => b.At feed seen' places b'' :=
  (h.numberArg hargs hb hk).bind fun _ _ _ _ _ hb' => Tells.pure hb'

theorem bytesArg (hk : places k = 0) :
    Tells feed n seen b' (fun f => Bound.on k (readAll (puller f))) (View.argBytes b k)
      fun seen' _ b'' => ∃ i, b.At feed seen' (Function.update places k i) b'' :=
  hb.tellsSome fun a a' ha hat => by
    rw [hk] at hat
    refine (Tracks.gathered (h.drain (hargs.getElem? ha) hat)).imp ?_
    rintro seen' all bytes v _ - - ⟨rfl, rfl, i, hv⟩
    exact ⟨rfl, rfl, i, hv⟩

theorem applyArg (hk : places k = 0) (hx : x.Unpulled) :
    Tells feed n seen b' (fun f => Bound.applyArg (puller f) k x) (View.applyArg b k x)
      fun seen' _ b'' => b.At feed seen' places b'' :=
  hb.tellsThere fun a a' ha hat => by
    rw [hk] at *
    refine (requireKind_tells hat .fn).bind ?_
    rintro seen' ⟨⟩ _ hfurther - rfl
    exact h.apply (hargs.getElem? ha) hx (hat.mono hfurther)

theorem textEndedOverArg (k : Nat) :
    Tells feed n seen b' (fun f => Bound.on k (puller f).textEnded) ((TextView.arg b k).ended (places k))
      fun seen' e b'' => b.At feed seen' places b'' ∧ (e = true → b''.ArgOver feed seen' k) := by
  refine (hb.tellsArg (fun _ => places k) (R := fun seen' e v => e = true → v.Over feed seen') fun _ _ ha hat =>
    (h.text (hargs.getElem? ha)).endedOver hat).imp ?_
  rintro seen' e b'' - - ⟨hb'', v, hv, hover⟩
  rw [Function.update_eq_self] at hb''
  exact ⟨hb'', fun he => ⟨v, hv, hover he⟩⟩

theorem textEndedArg (k : Nat) :
    Tells feed n seen b' (fun f => Bound.on k (puller f).textEnded) ((TextView.arg b k).ended (places k))
      fun seen' _ b'' => b.At feed seen' places b'' :=
  (h.textEndedOverArg hargs hb k).imp fun _ _ _ _ _ hb'' => hb''.1

theorem streamArg (k : Nat) :
    Tracks feed n seen b' (fun f => Bound.on k (puller f).stream) ((TextView.arg b k).next (places k))
      ((TextView.arg b k).Streamed feed (fun seen i b' => b.At feed seen (Function.update places k i) b')
        (places k)) := by
  rw [TextView.arg, TextView.after_next]
  refine (hb.on (N := fun _ chunk _ j bytes =>
    (TextView.arg b k).Passed feed (places k) chunk j bytes) fun a a' ha hat => ?_).imp ?_
  · refine ((h.text (hargs.getElem? ha)).stream hat).imp ?_
    rintro seen' chunk _ v bytes - - hstreamed
    rw [TextView.arg_eq ha]
    exact TextView.streamed_iff.1 hstreamed
  · exact fun _ _ _ _ _ _ _ hpassed => TextView.streamed_iff.2 hpassed

theorem listEndedOverArg (k : Nat) :
    Tells feed n seen b' (fun f => Bound.on k (puller f).listEnded) ((ListView.arg b k).ended (places k))
      fun seen' e b'' => b.At feed seen' places b'' ∧ (e = true → b''.ArgOver feed seen' k) := by
  refine (hb.tellsArg (fun _ => places k) (R := fun seen' e v => e = true → v.Over feed seen') fun _ _ ha hat =>
    (h.list (hargs.getElem? ha)).endedOver hat).imp ?_
  rintro seen' e b'' - - ⟨hb'', v, hv, hover⟩
  rw [Function.update_eq_self] at hb''
  exact ⟨hb'', fun he => ⟨v, hv, hover he⟩⟩

theorem currentArg (k : Nat) :
    Tells feed n seen b' (fun f => Bound.on k (puller f).current) ((ListView.arg b k).item (places k))
      fun seen' _ b'' => b.At feed seen' places b'' :=
  hb.tellsThere fun _ _ ha hat => (h.list (hargs.getElem? ha)).current hat

theorem advanceArg (k : Nat) :
    Tells feed n seen b' (fun f => Bound.on k (puller f).advance) ((ListView.arg b k).step (places k))
      fun seen' _ b'' => b.At feed seen' (Function.update places k (places k + 1)) b'' :=
  hb.tells (fun _ => places k + 1) fun _ _ ha hat => (h.list (hargs.getElem? ha)).advance hat

theorem nextOverArg (k : Nat) :
    Tells feed n seen b' (fun f => Bound.on k (puller f).next) ((ListView.arg b k).next (places k))
      fun seen' item b'' =>
        b.At feed seen' (Function.update places k (if item.isSome then places k + 1 else places k)) b'' ∧
          (item = none → b''.ArgOver feed seen' k) := by
  rw [ListView.arg, ListView.after_next]
  refine (hb.tellsArg (fun item : Option Value => if item.isSome then places k + 1 else places k)
    (R := fun seen' item v => item = none → v.Over feed seen') fun a a' ha hat =>
      (h.list (hargs.getElem? ha)).nextOver hat).imp ?_
  rintro seen' item b'' - - ⟨hb'', v, hv, hover⟩
  exact ⟨hb'', fun hitem => ⟨v, hv, hover hitem⟩⟩

theorem nextArg (k : Nat) :
    Tells feed n seen b' (fun f => Bound.on k (puller f).next) ((ListView.arg b k).next (places k))
      fun seen' item b'' =>
        b.At feed seen' (Function.update places k (if item.isSome then places k + 1 else places k)) b'' :=
  (h.nextOverArg hargs hb k).imp fun _ _ _ _ _ hb'' => hb''.1

end

end Pulls

theorem ListView.ended_of_next {l : ListView} {k : Nat} (h : (l.next k).Gives feed (some x)) :
    (l.ended k).Gives feed false := by
  obtain ⟨e, he, h⟩ := View.gives_bind_iff.1 h
  cases e with
  | true => cases View.gives_pure_iff.1 h
  | false => exact he

theorem ListView.unpulled_of_item_arg {b : Bound} (hargs : b.Unpulled) {k : Nat}
    (h : ((ListView.arg b i).item k).Gives feed x) : x.Unpulled :=
  h.elim fun n hn => ListView.clean_arg (viewer_clean feed n) hargs i k x hn

theorem ListView.unpulled_of_next_of {value : Value} (hvalue : value.Unpulled) {k : Nat}
    (h : ((ListView.of value).next k).Gives feed (some x)) : x.Unpulled :=
  h.elim fun n hn => (ListView.clean_of (viewer_clean feed n) hvalue).next k _ hn x rfl

theorem ListView.unpulled_of_next_arg {b : Bound} (hargs : b.Unpulled) {k : Nat}
    (h : ((ListView.arg b i).next k).Gives feed (some x)) : x.Unpulled :=
  h.elim fun n hn => (ListView.clean_arg (viewer_clean feed n) hargs i).next k _ hn x rfl

end PullScript
