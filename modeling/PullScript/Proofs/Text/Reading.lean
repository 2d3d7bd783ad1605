import PullScript.Proofs.Lists.Items
import PullScript.Proofs.View.Pouring
import PullScript.Proofs.View.Walking

namespace PullScript

open Act

namespace Value

def Reads (text : Value) (w : World) (bytes : Bytes) : Prop :=
  ∃ s, Comes (fun n => readAll (puller n)) (text, w) (.ok bytes s)

def Amounts (number : Value) (w : World) (x : Float) : Prop :=
  ∃ s, Comes (fun n => (puller n).number) (number, w) (.ok x s)

section

variable {value : Value} {feed : Feed} {α : Type} {k : Nat} {s : Value × World} {act : Nat → Act Value α}
  {m : View α} {a : α} {P : Reach → α → Value → Prop}

theorem On.gives_of_ok {n : Nat} {s' : Value × World} (hon : value.On feed k s) (hquiet : Quiet (act n))
    (h : ∀ {seen v}, value.At feed seen k v → Tells feed n seen v act m P) (hrun : act n s = .ok a s') :
    m.Gives feed a := by
  obtain ⟨v, w⟩ := s
  obtain ⟨seen, hstocked, hat⟩ := hon
  have hroomy := hquiet v w {}
  rw [hrun] at hroomy
  obtain ⟨_, _, _, hgives, -, rfl, -⟩ := (h hat).sound hstocked hroomy
  exact hgives

theorem On.comes_iff (hon : value.On feed k s) (hquiet : ∀ n, Quiet (act n))
    (h : ∀ {n seen v}, value.At feed seen k v → Tells feed n seen v act m P) :
    (∃ s', Comes act s (.ok a s')) ↔ m.Gives feed a := by
  constructor
  · rintro ⟨s', hcomes⟩
    obtain ⟨least, hleast⟩ := hcomes.enough
    exact hon.gives_of_ok (hquiet least) h (hleast least (Nat.le_refl _))
  · rintro ⟨n, hn⟩
    obtain ⟨v, w⟩ := s
    obtain ⟨seen, hstocked, hat⟩ := hon
    obtain ⟨_, _, _, _, _, hcomes, -, rfl, -⟩ := (h hat).complete hstocked hn
    exact ⟨_, hcomes.on fun n => hquiet n v { w with out := {} } w.out⟩

end

variable {value : Value} {w : World} {feed : Feed}

theorem Unpulled.on_copy (h : value.Unpulled) (w : World) : value.On w.feed 0 (value.copy, w) :=
  ⟨w.read, w.stocked_roomy, h.at_copy⟩

theorem On.reads_iff {s : Value × World} {bytes : Bytes} (hon : value.On feed 0 s) (h : value.Unpulled) :
    s.1.Reads s.2 bytes ↔ (View.ask value .whole).Gives feed bytes := by
  refine hon.comes_iff (P := fun _ _ _ => True) (fun n => (readAll_steps (steady_puller n)).quiet_run) fun hat => ?_
  refine (Tracks.gathered ((pulls feed _).drain h hat)).imp ?_
  rintro seen' all bytes v _ - - ⟨rfl, rfl, -⟩
  exact ⟨rfl, rfl, trivial⟩

theorem On.amounts_iff {s : Value × World} {x : Float} (hon : value.On feed 0 s) (h : value.Unpulled) :
    s.1.Amounts s.2 x ↔ (View.ask value .number).Gives feed x :=
  hon.comes_iff (fun n => (steady_puller n).number.quiet_run) fun hat => (pulls feed _).number h hat

namespace Unpulled

variable (h : value.Unpulled)
include h

theorem reads_iff {bytes : Bytes} : value.Reads w bytes ↔ (View.ask value .whole).Gives w.feed bytes :=
  (h.on w).reads_iff h

theorem amounts_iff {x : Float} : value.Amounts w x ↔ (View.ask value .number).Gives w.feed x :=
  (h.on w).amounts_iff h

theorem reads_copy_iff {bytes : Bytes} : value.copy.Reads w bytes ↔ value.Reads w bytes :=
  ((h.on_copy w).reads_iff h).trans h.reads_iff.symm

end Unpulled

end Value

namespace TextView

variable {feed : Feed} {t : TextView} {all : Bytes} {last : Nat}

/-- What is made of a text that is read as far as is enough is what is made of all of it, if more bytes would not make
a difference. -/
theorem Ends.readUntil {δ : Type} (enough : Bytes → Bool) (f : Bytes → δ) (h : t.Ends feed last all)
    (hf : ∀ soFar more, enough soFar = true → f (soFar ++ more) = f soFar) :
    ∃ least, (t.readUntil enough).Gives feed least ∧ f least = f all := by
  obtain ⟨least, hleast, hreached⟩ := readUntil_gives h.runs (.inr h.ended)
  exact ⟨least, hleast, (hreached.eq_of_stable hf).symm⟩

theorem Ends.whole (h : t.Ends feed last all) : t.whole.Gives feed all := by
  obtain ⟨least, hleast, rfl⟩ := h.readUntil (fun _ => false) id fun _ _ hno => by cases hno
  exact hleast

theorem ofParts_runs (parts : List Bytes) {i : Nat} (hi : i ≤ parts.length) :
    (ofParts parts).Runs feed i parts.length (parts.drop i).flatten := by
  induction hi using Nat.decreasingInduction with
  | self =>
    rw [List.drop_length]
    exact .refl _
  | of_succ i hi ih =>
    have hnext : ((ofParts parts).next i).Gives feed (some parts[i]) := by
      rw [ofParts_next, List.getElem?_eq_getElem hi]
      exact .pure _
    rw [List.drop_eq_getElem_cons hi]
    exact .step hnext ih

theorem ofParts_ends (parts : List Bytes) : (ofParts parts).Ends feed parts.length parts.flatten :=
  ⟨ofParts_runs parts (Nat.zero_le _), View.gives_pure_iff.2 (by simp)⟩

end TextView

namespace View

variable {feed : Feed} {value : Value} {all : Bytes}

theorem kind_of_ask {query : Query} {reply : query.Reply} (h : (ask value query).Gives feed reply) :
    value.kind = query.kind := by
  obtain ⟨_ | n, hn⟩ := h
  · cases hn
  obtain ⟨⟨⟩, hrequire, -⟩ := View.run_bind_eq_ok_iff.1 hn
  exact View.gives_require_iff.1 ⟨n, hrequire⟩

theorem gives_front {δ : Type} {more : Bytes → Bool} (f : Bytes → δ) (h : (ask value .whole).Gives feed all)
    (hf : ∀ soFar extra, more soFar = false → f (soFar ++ extra) = f soFar) :
    ∃ least, (front value more).Gives feed least ∧ f least = f all := by
  obtain ⟨last, hends⟩ := TextView.exists_ends_of_ask h
  obtain ⟨least, hleast, heq⟩ := hends.readUntil (fun soFar => !more soFar) f fun soFar extra henough =>
    hf soFar extra (by simpa using henough)
  exact ⟨least, (gives_require_iff.2 (kind_of_ask h)).bind hleast, heq⟩

end View

theorem Value.reads_textOf (bytes : Bytes) (w : World) : (textOf bytes).Reads w bytes :=
  (unpulled_textOf bytes).reads_iff.2 ((View.gives_ask_fitting rfl).2
    (TextView.once_whole_gives (.pure _)))

theorem Value.reads_chunks (parts : List Bytes) (w : World) : (chunks parts 0).Reads w parts.flatten := by
  have hunpulled : (chunks parts 0).Unpulled := rfl
  exact hunpulled.reads_iff.2 ((View.gives_ask_fitting rfl).2 (TextView.ofParts_ends parts).whole)

end PullScript
