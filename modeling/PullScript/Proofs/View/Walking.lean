import PullScript.Proofs.View.Built
import PullScript.Proofs.View.Ended

namespace PullScript

open Act

variable {α : Type} {n j : Nat} {asked : Asked} {asks : List Asked} {act : Nat → Act Value α} {m : View α} {a : α}

inductive Asked where
  | ended (answer : Bool)
  | current (item : Value)
  | advance

namespace Asked

def ask : Asked → ListAsk
  | ended _ => .ended
  | current _ => .current
  | advance => .advance

def steps : Asked → Nat
  | ended _ | current _ => 0
  | advance => 1

inductive Gets : Asked → Value × World → Value × World → Prop
  | ended {n : Nat} {e : Bool} {s s' : Value × World} : (puller n).listEnded s = .ok e s' → Gets (.ended e) s s'
  | current {n : Nat} {item : Value} {s s' : Value × World} :
    (puller n).current s = .ok item s' → Gets (.current item) s s'
  | advance {n : Nat} {s s' : Value × World} : (puller n).advance s = .ok () s' → Gets .advance s s'

end Asked

inductive Walked : Value × World → List Asked → Value × World → Prop
  | nil (s : Value × World) : Walked s [] s
  | cons {asked : Asked} {asks : List Asked} {s s' s'' : Value × World} :
    asked.Gets s s' → Walked s' asks s'' → Walked s (asked :: asks) s''

def Asked.stepsOf (asks : List Asked) : Nat :=
  (asks.map steps).sum

inductive LedOn : Value × World → Value × World → Prop
  | refl (s : Value × World) : LedOn s s
  | answered {n : Nat} {ask : ListAsk} {reply : ask.Reply} {s s' s'' : Value × World} : ask.Forward →
    pull n (.list ask) s = .ok reply s' → LedOn s' s'' → LedOn s s''
  | failed {n : Nat} {ask : ListAsk} {stop : Stop} {s s' s'' : Value × World} : ask.Forward →
    pull n (.list ask) s = .error stop s' → LedOn s' s'' → LedOn s s''

/-- A list in some world at a place, however much room there is for what is streamed. -/
def Value.On (feed : Feed) (list : Value) (k : Nat) (s : Value × World) : Prop :=
  ∃ seen, ({ s.2 with out := {} } : World).Stocked feed seen ∧ list.At feed seen k s.1

def Value.Closed (feed : Feed) (s : Value × World) : Prop :=
  ∃ seen, s.2.Drained feed seen ∧ s.1.Over feed seen

def Asked.Seen (feed : Feed) (list : Value) (k : Nat) : Asked → Prop
  | ended e => ((ListView.of list).ended k).Gives feed e
  | current item => ((ListView.of list).item k).Gives feed item
  | advance => ((ListView.of list).step k).Gives feed ()

theorem Value.Unpulled.on {list : Value} (h : list.Unpulled) (w : World) : list.On w.feed 0 (list, w) :=
  ⟨w.read, w.stocked_roomy, h.at_start⟩

section

variable {feed : Feed} {list : Value} {k : Nat} {s s' : Value × World}

theorem Value.On.sound {O : Reach → α → Value → Prop} (hon : list.On feed k s) (hquiet : Quiet (act n))
    (h : ∀ {seen v}, list.At feed seen k v → Tells feed n seen v act m fun seen' x v' => list.At feed seen' j v' ∧
      O seen' x v')
    (hrun : act n s = .ok a s') :
    m.Gives feed a ∧ list.On feed j s' ∧ ∃ seen', s'.2.Drained feed seen' ∧ O seen' a s'.1 := by
  obtain ⟨v, w⟩ := s
  obtain ⟨seen, hstocked, hat⟩ := hon
  have hroomy := hquiet v w {}
  rw [hrun] at hroomy
  obtain ⟨seen', _, _, hgives, hmoves, rfl, rfl, hat', hO⟩ := (h hat).sound hstocked hroomy
  exact ⟨hgives, ⟨seen', hmoves.stocked, hat'⟩, seen', hmoves.stocked.drained, hO⟩

theorem Value.On.complete (hon : list.On feed k s) (hquiet : ∀ n, Quiet (act n))
    (h : ∀ {n seen v}, list.At feed seen k v → Tells feed n seen v act m fun seen' _ v' => list.At feed seen' j v')
    (hgives : m.Gives feed a) : ∃ n s', act n s = .ok a s' := by
  obtain ⟨v, w⟩ := s
  obtain ⟨seen, hstocked, hat⟩ := hon
  obtain ⟨n, hn⟩ := hgives
  obtain ⟨seen', _, v', w', _, hcomes, -, rfl, -, -⟩ := (h hat).complete hstocked hn
  obtain ⟨least, hleast⟩ := hcomes.enough
  have hroomy := hquiet least v { w with out := {} } w.out
  rw [hleast least (Nat.le_refl _)] at hroomy
  exact ⟨least, _, hroomy⟩

theorem Asked.Gets.seen (hlist : list.Unpulled) (hon : list.On feed k s) (h : asked.Gets s s') :
    asked.Seen feed list k ∧ list.On feed (k + asked.steps) s' := by
  cases h with
  | @ended n e _ _ hrun =>
    obtain ⟨hgives, hon', -⟩ := hon.sound (steady_puller n).listEnded.quiet_run ((pulls feed n).list hlist).endedOver hrun
    exact ⟨hgives, hon'⟩
  | @current n item _ _ hrun =>
    obtain ⟨hgives, hon', -⟩ := hon.sound (O := fun _ _ _ => True) (steady_puller n).current.quiet_run
      (fun hat => (((pulls feed n).list hlist).current hat).imp fun _ _ _ _ _ hat' => ⟨hat', trivial⟩) hrun
    exact ⟨hgives, hon'⟩
  | @advance n _ _ hrun =>
    obtain ⟨hgives, hon', -⟩ := hon.sound (O := fun _ _ _ => True) (steady_puller n).advance.quiet_run
      (fun hat => (((pulls feed n).list hlist).advance hat).imp fun _ _ _ _ _ hat' => ⟨hat', trivial⟩) hrun
    exact ⟨hgives, hon'⟩

theorem Asked.Seen.gets (hlist : list.Unpulled) (hon : list.On feed k s) (h : asked.Seen feed list k) :
    ∃ s', asked.Gets s s' := by
  cases asked with
  | ended e =>
    obtain ⟨n, s', hrun⟩ := hon.complete (fun n => (steady_puller n).listEnded.quiet_run)
      (fun {n _ _} => ((pulls feed n).list hlist).ended) h
    exact ⟨s', .ended hrun⟩
  | current item =>
    obtain ⟨n, s', hrun⟩ := hon.complete (fun n => (steady_puller n).current.quiet_run)
      (fun {n _ _} => ((pulls feed n).list hlist).current) h
    exact ⟨s', .current hrun⟩
  | advance =>
    obtain ⟨n, s', hrun⟩ := hon.complete (fun n => (steady_puller n).advance.quiet_run)
      (fun {n _ _} => ((pulls feed n).list hlist).advance) h
    exact ⟨s', .advance hrun⟩

theorem Asked.Seen.unique {asked' : Asked} (h : asked.Seen feed list k) (h' : asked'.Seen feed list k)
    (hask : asked.ask = asked'.ask) : asked = asked' := by
  cases asked with
  | ended e =>
    cases asked' with
    | ended e' => rw [View.Gives.unique h h']
    | _ => cases hask
  | current item =>
    cases asked' with
    | current item' => rw [View.Gives.unique h h']
    | _ => cases hask
  | advance =>
    cases asked' with
    | advance => rfl
    | _ => cases hask

theorem Walked.on (h : Walked s asks s') (hlist : list.Unpulled) (hon : list.On feed k s) :
    list.On feed (k + Asked.stepsOf asks) s' := by
  induction h generalizing k with
  | nil s => exact hon
  | @cons asked asks _ _ _ hasked _ ih =>
    have hrest := ih (hasked.seen hlist hon).2
    rwa [Nat.add_assoc] at hrest

theorem Walked.from_place {s₁ s₂ t₁ : Value × World} (h : Walked s₁ asks t₁) (hlist : list.Unpulled)
    (hon₁ : list.On feed k s₁) (hon₂ : list.On feed k s₂) : ∃ t₂, Walked s₂ asks t₂ := by
  induction h generalizing k s₂ with
  | nil s => exact ⟨s₂, .nil s₂⟩
  | cons hasked _ ih =>
    obtain ⟨hseen, hon₁'⟩ := hasked.seen hlist hon₁
    obtain ⟨s₂', hasked'⟩ := hseen.gets hlist hon₂
    obtain ⟨t₂, hrest⟩ := ih hon₁' (hasked'.seen hlist hon₂).2
    exact ⟨t₂, .cons hasked' hrest⟩

theorem Value.Closed.of_ended (hlist : list.Unpulled) (hon : list.On feed k s) (h : (Asked.ended true).Gets s s') :
    Value.Closed feed s' := by
  cases h with
  | @ended n _ _ _ hrun =>
    obtain ⟨-, -, seen, hdrained, hover⟩ :=
      hon.sound (steady_puller n).listEnded.quiet_run ((pulls feed n).list hlist).endedOver hrun
    exact ⟨seen, hdrained, hover rfl⟩

namespace Value.Closed

theorem ledOn (h : Value.Closed feed s) (hled : LedOn s s') : Value.Closed feed s' := by
  induction hled with
  | refl s => exact h
  | @answered n ask _ s _ _ hask hrun _ ih =>
    obtain ⟨seen, hdrained, hover⟩ := h
    have hlasting := (rests_puller feed seen n).list ask hask hover s.2.out s.2 ⟨hdrained, rfl⟩
    rw [show (puller n).pull (.list ask) (s.1, s.2) = _ from hrun] at hlasting
    exact ih ⟨seen, hlasting.2.drained, hlasting.1.1⟩
  | @failed n ask _ s _ _ hask hrun _ ih =>
    obtain ⟨seen, hdrained, hover⟩ := h
    have hlasting := (rests_puller feed seen n).list ask hask hover s.2.out s.2 ⟨hdrained, rfl⟩
    rw [show (puller n).pull (.list ask) (s.1, s.2) = _ from hrun] at hlasting
    exact ih ⟨seen, (hlasting trivial).2.drained, (hlasting trivial).1⟩

theorem ended_eq {e : Bool} (h : Value.Closed feed s) (hrun : (puller n).listEnded s = .ok e s') : e = true := by
  obtain ⟨seen, hdrained, hover⟩ := h
  have hlasting := (rests_puller feed seen n).listEnded hover s.2.out s.2 ⟨hdrained, rfl⟩
  rw [hrun] at hlasting
  exact hlasting.1.2

theorem next_eq {item : Option Value} (h : Value.Closed feed s) (hrun : (puller n).next s = .ok item s') :
    item = none := by
  obtain ⟨seen, hdrained, hover⟩ := h
  have hlasting := (rests_puller feed seen n).next hover s.2.out s.2 ⟨hdrained, rfl⟩
  rw [hrun] at hlasting
  exact hlasting.1.2

end Value.Closed

theorem Asked.Gets.next (h : (puller n).listEnded s = .ok true s') : (puller n).next s = .ok none s' := by
  rw [Puller.next, bind_run, h]
  rfl

end

/-- After the same number of steps a list goes on in the same way, whatever else it was asked: it gives the same
answers, and the same ones follow. Once it has said that it has ended, it says so again whatever else it is asked,
unless it fails; and it says so again as long as no further step is taken. -/
theorem Value.Built.walked_alike {registry : Registry} (hregistry : Registry.standard = .ok registry) {list : Value}
    (hbuilt : list.Built registry true) {w : World} {asks₁ : List Asked} {s₁ : Value × World}
    (hwalked₁ : Walked (list, w) asks₁ s₁) :
    (∀ asks₂ s₂, Walked (list, w) asks₂ s₂ → Asked.stepsOf asks₂ = Asked.stepsOf asks₁ →
      (∀ rest, (∃ t, Walked s₁ rest t) ↔ ∃ t, Walked s₂ rest t) ∧
      ∀ (asked₁ asked₂ : Asked) t₁ t₂, asked₁.Gets s₁ t₁ → asked₂.Gets s₂ t₂ → asked₁.ask = asked₂.ask → asked₁ = asked₂) ∧
    (∀ ended, (Asked.ended true).Gets s₁ ended →
      (∀ t, LedOn ended t → (∀ n e t', (puller n).listEnded t = .ok e t' → e = true) ∧
        ∀ n item t', (puller n).next t = .ok item t' → item = none) ∧
      ∀ more t, Walked ended more t → Asked.stepsOf more = 0 →
        ∃ n t', (puller n).listEnded t = .ok true t' ∧ (puller n).next t = .ok none t') := by
  have hlist := hbuilt.unpulled
  have hon₁ := hwalked₁.on hlist (hlist.on w)
  refine ⟨fun asks₂ s₂ hwalked₂ hsteps => ?_, fun ended hended => ⟨fun t hled => ?_, fun more t hmore hsteps => ?_⟩⟩
  · have hon₂ := hwalked₂.on hlist (hlist.on w)
    rw [hsteps] at hon₂
    refine ⟨fun rest => ⟨?_, ?_⟩, fun asked₁ asked₂ t₁ t₂ h₁ h₂ hask => ?_⟩
    · exact fun ⟨_, hrest⟩ => hrest.from_place hlist hon₁ hon₂
    · exact fun ⟨_, hrest⟩ => hrest.from_place hlist hon₂ hon₁
    · exact (h₁.seen hlist hon₁).1.unique (h₂.seen hlist hon₂).1 hask
  · have hclosed := (Value.Closed.of_ended hlist hon₁ hended).ledOn hled
    exact ⟨fun _ _ _ => hclosed.ended_eq, fun _ _ _ => hclosed.next_eq⟩
  · obtain ⟨hseen, hon⟩ := hended.seen hlist hon₁
    have hon' := hmore.on hlist hon
    rw [hsteps] at hon'
    obtain ⟨t', hgets⟩ := hseen.gets hlist hon'
    cases hgets with
    | @ended n _ _ _ hrun => exact ⟨n, t', hrun, Asked.Gets.next hrun⟩

namespace Value

def headOfNone : Value :=
  .suspended "head" (.unknown "a_head") [.recast (.listOf [.unknown "a_head"] false) (.list [] [] 0) 0] (.pick .head none)

def breakingText (read : Bool) : Value :=
  .suspended "prefix" (.str false) [.text [97] read, headOfNone] (.concat ⟨[0, 1], [0, 1]⟩)

def firstOfTwo : Value :=
  .curried ⟨"const", "a -> b -> a", 1, "a function always giving back the same value", .const⟩
    (.arrow (.unknown "a_const") (.arrow (.unknown "b_const") (.unknown "a_const"))) []

/-- The bytes of a text that fails behind its first byte, side by side with no items. -/
def unevenZip (read : Bool) (position : Nat) : Value :=
  .suspended "zipwith" (.listOf [.num] true)
    [firstOfTwo,
      .recast (.listOf [.num] true) (.suspended "bytes" (.listOf [.num] false) [breakingText read] (.bytes [])) position,
      .recast (.listOf [.unknown "b_const"] true) (.list [] [] 0) position] .zipWith

section

variable {registry : Registry} (h : Registry.standard = .ok registry) (inputs : Bool)
include h

theorem built_headOfNone : headOfNone.Built registry inputs := by
  have hhead := Built.standard h inputs ⟨"head", "[a] -> a", 1, "the first item of a list", .pick .head⟩
    (.arrow (.listOf [.unknown "a"] false) (.unknown "a")) (by simp [Catalogue.standard, Catalogue.list]) (by cbv)
  have hempty : Built registry inputs (.list [] [] 0) := .list [] fun _ hmem => absurd hmem List.not_mem_nil
  exact .applied hhead hempty (w := {}) (n := 2) (by cbv)

theorem built_breakingText : (breakingText false).Built registry inputs :=
  .applied (built_putInFront h inputs) (built_headOfNone h inputs) (w := {}) (n := 2) (by cbv)

theorem built_firstOfTwo : firstOfTwo.Built registry inputs :=
  Built.standard h inputs _ (.arrow (.unknown "a") (.arrow (.unknown "b") (.unknown "a")))
    (by simp [Catalogue.standard, Catalogue.func]) (by cbv)

theorem built_bytes : Built registry inputs
    (.head ⟨"bytes", "Str* -> [Num]*", 1, "split a string into its bytes", .bytes⟩
      (.arrow (.str true) (.listOf [.num] true))) :=
  Built.standard h inputs _ (.arrow (.str true) (.listOf [.num] true)) (by simp [Catalogue.standard, Catalogue.text]) (by cbv)

theorem built_zipWithFirst : Built registry inputs
    (.curried
      ⟨"zipwith", "(a -> b -> c) -> [a]* -> [b]* -> [c]*", 3,
        "make a new list by applying a binary function to the items of two lists side by side; " ++
          "stops at the end of the shorter one", .zipWith⟩
      (.arrow (.listOf [.unknown "a_const"] true)
        (.arrow (.listOf [.unknown "b_const"] true) (.listOf [.unknown "a_const"] true))) [firstOfTwo]) := by
  have hzip := Built.standard h inputs
    ⟨"zipwith", "(a -> b -> c) -> [a]* -> [b]* -> [c]*", 3,
      "make a new list by applying a binary function to the items of two lists side by side; " ++
        "stops at the end of the shorter one", .zipWith⟩
    (.arrow (.arrow (.unknown "a") (.arrow (.unknown "b") (.unknown "c")))
      (.arrow (.listOf [.unknown "a"] true) (.arrow (.listOf [.unknown "b"] true) (.listOf [.unknown "c"] true))))
    (by simp [Catalogue.standard, Catalogue.list]) (by cbv)
  exact .applied hzip (built_firstOfTwo h inputs) (w := {}) (n := 2) (by cbv)

theorem built_unevenZip : (unevenZip false 0).Built registry inputs := by
  have hempty : Built registry inputs (.list [] [] 0) := .list [] fun _ hmem => absurd hmem List.not_mem_nil
  have hleft := Built.applied (built_bytes h inputs) (built_breakingText h inputs) (w := {}) (n := 2) (by cbv)
  have htwo := Built.applied (built_zipWithFirst h inputs) hleft (w := {}) (n := 2) (by cbv)
  exact .applied htwo hempty (w := {}) (n := 2) (by cbv)

end

theorem Built.walked_alike_unevenZip :
    ∃ registry, Registry.standard = .ok registry ∧ (unevenZip false 0).Built registry true ∧
      ∃ s, Walked (unevenZip false 0, {}) [.ended true] s ∧
        (∀ rest, (∃ t, Walked (unevenZip false 0, {}) rest t) ↔ ∃ t, Walked s rest t) ∧
        ∀ n item t, (puller n).next s = .ok item t → item = none := by
  obtain ⟨registry, hregistry⟩ := Registry.exists_standard
  have hbuilt := built_unevenZip hregistry true
  have hended {s : Value × World} (h : (puller 9).listEnded (unevenZip false 0, {}) = .ok true s) :
      (Asked.ended true).Gets (unevenZip false 0, {}) s := .ended h
  have hgets := hended (by cbv)
  obtain ⟨hsame, hover⟩ := hbuilt.walked_alike hregistry (.nil (unevenZip false 0, {}))
  refine ⟨registry, hregistry, hbuilt, _, .cons hgets (.nil _), ?_, ?_⟩
  · exact (hsame [.ended true] _ (.cons hgets (.nil _)) rfl).1
  · exact ((hover _ hgets).1 _ (.refl _)).2

/-- A list that has said that it has ended, and that is led on past its end, need not say so again. -/
theorem unevenZip_fails_past_end :
    ∃ registry, Registry.standard = .ok registry ∧ (unevenZip false 0).Built registry true ∧
      Walked (unevenZip false 0, {}) [.ended true, .advance] (unevenZip true 1, {}) ∧
      (∀ n, ∃ stop s, (puller n).listEnded (unevenZip true 1, {}) = .error stop s) ∧
      ∃ n s, (puller n).listEnded (unevenZip true 1, {}) = .error (.failed (.runtime .headOfEmpty)) s := by
  obtain ⟨registry, hregistry⟩ := Registry.exists_standard
  refine ⟨registry, hregistry, built_unevenZip hregistry true, ?_, fun n => ?_, 9, _, by cbv⟩
  · exact .cons (.ended (n := 9) (by cbv)) (.cons (.advance (n := 9) (by cbv)) (.nil _))
  · rcases n with _ | _ | _ | _ | _ | _ | _ | _ | _ | n
    all_goals exact ⟨_, _, by cbv⟩

end Value

end PullScript
