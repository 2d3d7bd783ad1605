import PullScript.Proofs.Eval.Calls
import PullScript.Proofs.Lists.Draining
import PullScript.Proofs.Lists.Recast
import PullScript.Proofs.Number.Binary64
import PullScript.Proofs.Text.Reading
import PullScript.Proofs.Text.Units

namespace PullScript

namespace TextView

variable {feed : Feed} {t : TextView} {all : Bytes} {last : Nat}

theorem Ends.byteAt (h : t.Ends feed last all) (k : Nat) : (t.byteAt k).Gives feed all[k]? := by
  -- a byte that has been read stays the same when more are read
  obtain ⟨least, hleast, heq⟩ := h.readUntil (fun soFar => k < soFar.length) (·[k]?) fun soFar more hlong => by
    rw [List.getElem?_append_left (by simpa using hlong)]
  exact hleast.bind (View.gives_pure_iff.2 heq)

theorem Ends.unitFrom (h : t.Ends feed last all) (unit : TextUnit) (start : Nat) :
    (t.unitFrom unit start).Gives feed (unitIn unit start all) := by
  obtain ⟨least, hleast, heq⟩ := h.readUntil (settles unit start) (unitIn unit start) fun _ more hsettles =>
    unitIn_append hsettles more
  exact hleast.bind (View.gives_pure_iff.2 heq)

theorem unitIn_eq_head? (unit : TextUnit) (start : Nat) (all : Bytes) :
    unitIn unit start all = (unit.cut (all.drop start)).head? := by
  rw [TextUnit.cut, unitIn]
  by_cases hnil : all.drop start = []
  · simp [hnil]
  · simp [hnil, TextUnit.cutFront]

theorem Ends.unitStart (h : t.Ends feed last all) (unit : TextUnit) (k : Nat) :
    ∃ start, (t.unitStart unit k).Gives feed start ∧ unit.cut (all.drop start) = (unit.cut all).drop k := by
  induction k with
  | zero => exact ⟨0, .pure _, rfl⟩
  | succ k ih =>
    obtain ⟨start, hstart, hcut⟩ := ih
    have hunit := h.unitFrom unit start
    rw [unitIn_eq_head?] at hunit
    rw [← List.tail_drop, ← hcut]
    by_cases hnil : all.drop start = []
    · have hnone : unit.cut (all.drop start) = [] := by rw [TextUnit.cut, if_pos hnil]
      rw [hnone] at hunit
      refine ⟨start, hstart.bind (hunit.bind (.pure _)), ?_⟩
      rw [hnone]
      rfl
    · have hsome : unit.cut (all.drop start) = unit.cutFront (all.drop start) ::
          unit.cut ((all.drop start).drop (max (unit.front (all.drop start)).size 1)) := by
        rw [TextUnit.cut, if_neg hnil]
      rw [hsome] at hunit
      refine ⟨start + (unit.cutFront (all.drop start)).length,
        hstart.bind (hunit.bind (.pure _)), ?_⟩
      rw [hsome, List.tail_cons, ← List.drop_drop, TextUnit.cutFront, List.length_take]
      congr 1
      rw [List.drop_eq_drop_iff]
      omega

theorem Ends.unitAt (h : t.Ends feed last all) (unit : TextUnit) (k : Nat) :
    (t.unitAt unit k).Gives feed (unit.cut all)[k]? := by
  obtain ⟨start, hstart, hcut⟩ := h.unitStart unit k
  have hunit := h.unitFrom unit start
  rw [unitIn_eq_head?, hcut, List.head?_drop] at hunit
  exact hstart.bind hunit

end TextView

namespace ListView

variable {feed : Feed} {t : TextView} {all : Bytes} {last : Nat}

theorem fronts_holds {α : Type} {front : Nat → View (Option α)} {item : α → Value} {xs : List α}
    (h : ∀ k, (front k).Gives feed xs[k]?) : (fronts front item).Holds feed (xs.map item) := by
  refine ⟨fun k value hvalue => ?_, (h _).bind (View.gives_pure_iff.2 (by simp))⟩
  rw [List.getElem?_map] at hvalue
  obtain ⟨x, hx, -⟩ := Option.map_eq_some_iff.1 hvalue
  refine ⟨(h k).bind (View.gives_pure_iff.2 (by simp [hx])), (h k).bind (View.gives_getOr_iff.2 hvalue), ?_⟩
  exact (h k).bind (.pure _)

theorem holds_bytes (h : t.Ends feed last all) :
    (ListView.bytes t).Holds feed (all.map fun byte => .number (Float.ofNat byte.toNat)) :=
  fronts_holds h.byteAt

theorem holds_units (h : t.Ends feed last all) (unit : TextUnit) :
    (ListView.units t unit).Holds feed ((unit.cut all).map (Cutter.item unit)) :=
  fronts_holds (h.unitAt unit)

end ListView

theorem TextView.encoded_ends {feed : Feed} {l : ListView} {numbers : List Float} (e : Encoding)
    (h : l.Holds feed (numbers.map Value.number)) :
    (TextView.encoded l e).Ends feed numbers.length (numbers.flatMap e.bytes) := by
  have hruns (i : Nat) (hi : i ≤ numbers.length) :
      (TextView.encoded l e).Runs feed i numbers.length ((numbers.drop i).flatMap e.bytes) := by
    induction hi using Nat.decreasingInduction with
    | self =>
      rw [List.drop_length]
      exact .refl _
    | of_succ i hi ih =>
      have hitem : l.HasItem feed i (.number numbers[i]) := h.shows i _ (by simp [hi])
      have hnumber : (View.ask (.number numbers[i]) .number).Gives feed numbers[i] :=
        (View.gives_ask_fitting rfl).2 (.pure _)
      have hchunk : ((TextView.encoded l e).chunk i).Gives feed (e.bytes numbers[i]) :=
        hitem.next.bind (hnumber.bind (.pure _))
      rw [List.drop_eq_getElem_cons hi, List.flatMap_cons]
      exact .step (TextView.next_gives_some_iff.2 ⟨hitem.ended, hchunk⟩) ih
  have hends := h.ends
  rw [List.length_map] at hends
  exact ⟨hruns 0 (Nat.zero_le _), hends⟩

theorem Encoding.bytes_byte (b : UInt8) : Encoding.bytes (Float.ofNat b.toNat) .byte = [b] := by
  rw [Encoding.bytes, Binary64.toUInt8_ofNat]

theorem characterAt?_ofNat (c : Char) : characterAt? (Float.ofNat c.toNat) = some c := by
  have hvalid : c.toNat.isValidChar := c.valid
  have hlt : c.toNat < 2 ^ 32 := by
    unfold Nat.isValidChar at hvalid
    omega
  rw [characterAt?]
  simp only [Binary64.toNat_toUInt32_ofNat hlt, hvalid, if_true, Char.ofNat_toNat]

theorem Encoding.bytes_codePoint (c : Char) :
    Encoding.bytes (Float.ofNat c.toNat) .codePoint = String.utf8EncodeChar c := by
  rw [Encoding.bytes, characterAt?_ofNat, Option.getD_some]

namespace Utf8

/-- Bytes with a replacement character in place of each byte at which no character begins, from the front on. -/
inductive Mended : Bytes → Bytes → Prop
  | nil : Mended [] []
  | char (c : Char) {rest mended : Bytes} : Mended rest mended →
    Mended (String.utf8EncodeChar c ++ rest) (String.utf8EncodeChar c ++ mended)
  | stray {b : UInt8} {rest mended : Bytes} : Stray (b :: rest) → Mended rest mended →
    Mended (b :: rest) (String.utf8EncodeChar replacement ++ mended)

theorem mended_encode (text : List Char) : Mended (encode text) (encode text) := by
  induction text with
  | nil => exact .nil
  | cons c text ih =>
    rw [encode_cons]
    exact .char c ih

theorem Mended.unique {bytes mended mended' : Bytes} (h : Mended bytes mended) (h' : Mended bytes mended') :
    mended = mended' := by
  induction h generalizing mended' with
  | nil =>
    generalize hbytes : ([] : Bytes) = bytes at h'
    cases h' with
    | nil => rfl
    | char c _ => exact absurd (List.append_eq_nil_iff.1 hbytes.symm).1 String.utf8EncodeChar_ne_nil
    | stray _ _ => cases hbytes
  | @char c rest mended _ ih =>
    generalize hbytes : String.utf8EncodeChar c ++ rest = bytes at h'
    cases h' with
    | nil => exact absurd (List.append_eq_nil_iff.1 hbytes).1 String.utf8EncodeChar_ne_nil
    | char d h' =>
      obtain rfl := char_unique ⟨rest, rfl⟩ ⟨_, hbytes.symm⟩
      rw [ih (List.append_cancel_left hbytes ▸ h')]
    | stray hstray _ => exact absurd ⟨rest, hbytes⟩ (hstray c)
  | @stray b rest mended hstray _ ih =>
    generalize hbytes : b :: rest = bytes at h' hstray
    cases h' with
    | nil => cases hbytes
    | char c _ => exact absurd (List.prefix_append _ _) (hstray c)
    | stray _ h' =>
      obtain ⟨rfl, rfl⟩ := List.cons.inj hbytes
      rw [ih h']

/-- The character that stands for a unit: its own, or the replacement character. -/
def standIn (unit : Bytes) : Char :=
  match front unit with
  | .char c => c
  | _ => replacement

theorem item_codePoint (unit : Bytes) :
    Cutter.item .codePoint unit = .number (Float.ofNat (standIn unit).toNat) := by
  unfold Cutter.item standIn
  cases front unit <;> rfl

theorem mended_cut (bytes : Bytes) :
    Mended bytes ((TextUnit.codePoint.cut bytes).flatMap fun unit => String.utf8EncodeChar (standIn unit)) := by
  fun_induction TextUnit.cut TextUnit.codePoint bytes with
  | case1 => exact .nil
  | case2 bytes hne ih =>
    rw [List.flatMap_cons]
    generalize hrest : bytes.drop (max (TextUnit.codePoint.front bytes).size 1) = rest at ih
    have hsplit : TextUnit.codePoint.cutFront bytes ++ rest = bytes := by
      rw [← hrest, TextUnit.cutFront_append_drop]
    obtain ⟨c, hc⟩ | ⟨b, hb, hstray⟩ := TextUnit.stands_cutFront .codePoint hne
    · have hstand : standIn (TextUnit.codePoint.cutFront bytes) = c := by
        rw [standIn, hc, front_eq_char_iff.2 (List.prefix_refl _)]
      rw [hstand]
      rw [hc] at hsplit
      rw [← hsplit]
      exact .char c ih
    · have hstand : standIn (TextUnit.codePoint.cutFront bytes) = replacement := by
        have hfront (c : Char) : front [b] ≠ .char c := by
          rw [Ne, front_eq_char_iff]
          intro hc
          exact hstray c (hc.trans ⟨rest, by rw [← hb, hsplit]⟩)
        rw [standIn, hb]
        cases hcase : front [b] with
        | char c => exact absurd hcase (hfront c)
        | broken size => rfl
        | short => rfl
      rw [hstand]
      rw [hb] at hsplit
      rw [← hsplit] at hstray ⊢
      exact .stray hstray ih

end Utf8

namespace Value

variable {registry : Registry} {text : Value} {w : World} {all : Bytes}

/-- What a builtin that takes texts apart gives is made into a text by another builtin, and reading that text gives some
bytes. -/
def Restores (registry : Registry) (apart together : String) (text : Value) (w : World) (bytes : Bytes) : Prop :=
  ∃ f g list result, registry.lookup? apart = some f ∧ registry.lookup? together = some g ∧
    Calls f [text] list ∧ Calls g [list] result ∧ result.Reads w bytes

theorem restores_of_holds {apart together : String} (job : Job) {task : Task Value} (e : Encoding) {numbers : List Float}
    (hregistry : Registry.standard = .ok registry) (htext : text.Unpulled) (hkind : text.kind = .str)
    (hapart : ∃ module ∈ Catalogue.standard, ∃ builtin ∈ module.builtins,
      builtin.name = apart ∧ builtin.signature = "Str* -> [Num]*" ∧ builtin.arity = 1 ∧ builtin.job = job)
    (htogether : ∃ module ∈ Catalogue.standard, ∃ builtin ∈ module.builtins,
      builtin.name = together ∧ builtin.signature = "[Num]* -> Str*" ∧ builtin.arity = 1 ∧ builtin.job = .encode e)
    (hstart : job.start = .inr task) (hlist : ∀ ty args, (suspended apart ty args task).kind = .lst)
    (hholds : ∀ ty, (ListView.ofValue (.suspended apart ty [text] task)).Holds w.feed (numbers.map number)) :
    Restores registry apart together text w (numbers.flatMap e.bytes) := by
  have hfty : Ty.parse "Str* -> [Num]*" = .ok (.arrow (.str true) (.lst [.num] true false)) := by cbv
  have hgty : Ty.parse "[Num]* -> Str*" = .ok (.arrow (.lst [.num] true false) (.str true)) := by cbv
  obtain ⟨_, hf⟩ := Registry.lookup?_of_standard hregistry hapart hfty
  obtain ⟨_, hg⟩ := Registry.lookup?_of_standard hregistry htogether hgty
  -- the list is marked endless as the text is
  let list : Value := .suspended apart (.lst [.num] text.ty.isEndless false) [text] task
  let recast := list.recastTo (.lst [.num] true false)
  have hkindList : list.kind = .lst := hlist _ _
  have hnumbers : (ListView.of recast).Holds w.feed (numbers.map number) := by
    refine ListView.holds_recastTo rfl (fun item hitem => ?_) ((ListView.alike_ofValue hkindList).symm.holds (hholds _))
    obtain ⟨x, -, rfl⟩ := List.mem_map.1 hitem
    exact .pure _
  have hunpulled : list.Unpulled := ⟨⟨htext, trivial⟩, Job.unbegun_start hstart⟩
  refine ⟨_, _, list, .suspended together (.str recast.ty.isEndless) [recast] (.encode e), hf, hg, ?_, ?_, ?_⟩
  · refine .givenText hkind ?_ (.none _)
    simp only [Builtin.given?, Builtin.finished?, hstart]
    rfl
  · exact .given (fun h => by cases h) (coerced_lst hkindList ..) rfl (.none _)
  · have hresult : (suspended together (.str recast.ty.isEndless) [recast] (.encode e)).Unpulled :=
      ⟨⟨hunpulled.recastTo _, trivial⟩, trivial⟩
    refine hresult.reads_iff.2 ((View.gives_ask_fitting rfl).2 (TextView.Ends.whole (TextView.encoded_ends e ?_)))
    exact (ListView.alike_arg rfl).symm.holds hnumbers

theorem restores_bytes (hregistry : Registry.standard = .ok registry) (htext : text.Unpulled) (hall : text.Reads w all) :
    Restores registry "bytes" "unbytes" text w all := by
  have hwhole := htext.reads_iff.1 hall
  obtain ⟨last, hends⟩ := TextView.exists_ends_of_ask hwhole
  have hbytes : (all.map fun byte => Float.ofNat byte.toNat).flatMap (Encoding.bytes · .byte) = all := by
    rw [List.flatMap_map]
    simp [Encoding.bytes_byte]
  have hrestores : Restores registry "bytes" "unbytes" text w
      ((all.map fun byte => Float.ofNat byte.toNat).flatMap (Encoding.bytes · .byte)) := by
    refine restores_of_holds .bytes .byte hregistry htext (View.kind_of_ask hwhole)
      (by simp [Catalogue.standard, Catalogue.text]) (by simp [Catalogue.standard, Catalogue.text]) rfl
      (fun _ _ => rfl) fun ty => ?_
    rw [List.map_map]
    exact ListView.holds_bytes (hends.after (View.gives_arg_iff.2 rfl))
  rwa [hbytes] at hrestores

theorem restores_codePoints (hregistry : Registry.standard = .ok registry) (htext : text.Unpulled)
    (hall : text.Reads w all) {mended : Bytes} (hmended : Utf8.Mended all mended) :
    Restores registry "codepoints" "uncodepoints" text w mended := by
  have hwhole := htext.reads_iff.1 hall
  obtain ⟨last, hends⟩ := TextView.exists_ends_of_ask hwhole
  let numbers := (TextUnit.codePoint.cut all).map fun unit => Float.ofNat (Utf8.standIn unit).toNat
  have hbytes : numbers.flatMap (Encoding.bytes · .codePoint) = mended := by
    rw [List.flatMap_map, hmended.unique (Utf8.mended_cut all)]
    simp [Encoding.bytes_codePoint]
  have hrestores : Restores registry "codepoints" "uncodepoints" text w
      (numbers.flatMap (Encoding.bytes · .codePoint)) := by
    refine restores_of_holds (.units .codePoint) .codePoint hregistry htext (View.kind_of_ask hwhole)
      (by simp [Catalogue.standard, Catalogue.text]) (by simp [Catalogue.standard, Catalogue.text]) rfl
      (fun _ _ => rfl) fun ty => ?_
    have harg : (View.arg ⟨"codepoints", ty, [text]⟩ 0).Gives w.feed text := View.gives_arg_iff.2 rfl
    have hholds := ListView.holds_units (hends.after harg) .codePoint
    rw [funext Utf8.item_codePoint] at hholds
    rw [List.map_map]
    exact hholds
  rwa [hbytes] at hrestores

/-- A text is put together again from its bytes, and from its code points if all of it is text. Otherwise each byte at
which no character begins comes back as a replacement character; there is one way to mend a text like that. It does not
matter in which chunks the text comes, and chunks may cut characters. -/
theorem text_restored (hregistry : Registry.standard = .ok registry) :
    (∀ parts w, (chunks parts 0).Unpulled ∧ (chunks parts 0).Reads w parts.flatten) ∧
    ∀ text : Value, text.Unpulled → ∀ w all, text.Reads w all →
      Restores registry "bytes" "unbytes" text w all ∧
      (∀ chars, all = Utf8.encode chars → Restores registry "codepoints" "uncodepoints" text w all) ∧
      ∃ mended, (∀ mended', Utf8.Mended all mended' ↔ mended' = mended) ∧
        Restores registry "codepoints" "uncodepoints" text w mended := by
  refine ⟨fun parts w => ⟨rfl, reads_chunks parts w⟩, fun text htext w all hall => ?_⟩
  refine ⟨restores_bytes hregistry htext hall, ?_, ?_⟩
  · rintro chars rfl
    exact restores_codePoints hregistry htext hall (Utf8.mended_encode chars)
  · have hmended := Utf8.mended_cut all
    refine ⟨_, fun mended' => ⟨fun h => h.unique hmended, ?_⟩, restores_codePoints hregistry htext hall hmended⟩
    rintro rfl
    exact hmended

/-- The two bytes of a character in two chunks, a byte that begins no character, and a character that is cut short. -/
theorem text_restored_broken : ∃ registry, Registry.standard = .ok registry ∧
    Restores registry "bytes" "unbytes" (.chunks [[0xc3], [0xa4, 0xff], [], [0xe2, 0x82]] 0) {}
      [0xc3, 0xa4, 0xff, 0xe2, 0x82] ∧
    Restores registry "codepoints" "uncodepoints" (.chunks [[0xc3], [0xa4, 0xff], [], [0xe2, 0x82]] 0) {}
      [0xc3, 0xa4, 0xef, 0xbf, 0xbd, 0xef, 0xbf, 0xbd, 0xef, 0xbf, 0xbd] := by
  obtain ⟨registry, hregistry⟩ := Registry.exists_standard
  obtain ⟨hchunks, hrestores⟩ := text_restored hregistry
  obtain ⟨htext, hreads⟩ := hchunks [[0xc3], [0xa4, 0xff], [], [0xe2, 0x82]] {}
  obtain ⟨hbytes, -, mended, hmended, hcodes⟩ := hrestores _ htext {} _ hreads
  refine ⟨registry, hregistry, hbytes, ?_⟩
  have hstray (bytes : Bytes) (h : bytes ∈ [[0xff, 0xe2, 0x82], [0xe2, 0x82], [0x82]]) : Utf8.Stray bytes := by
    intro c hc
    have hfront := Utf8.front_eq_char_iff.2 hc
    simp only [List.mem_cons, List.not_mem_nil, or_false] at h
    obtain rfl | rfl | rfl := h <;> simp [Utf8.front, Utf8.lead?] at hfront
  have hway : Utf8.Mended [0xc3, 0xa4, 0xff, 0xe2, 0x82]
      [0xc3, 0xa4, 0xef, 0xbf, 0xbd, 0xef, 0xbf, 0xbd, 0xef, 0xbf, 0xbd] :=
    .char 'ä' (.stray (hstray _ (by simp)) (.stray (hstray _ (by simp)) (.stray (hstray _ (by simp)) .nil)))
  rwa [← (hmended _).1 hway] at hcodes

end Value

end PullScript
