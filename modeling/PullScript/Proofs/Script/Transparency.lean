import PullScript.Proofs.Script.Inlining
import PullScript.Proofs.Twin.Running

namespace PullScript

open Act

variable {registry : Registry}

namespace Script

variable {ts us : List Token} {p : Puller} {s s' : Setting} {x : Value}

def Spells (source : String) (kinds : List TokenKind) : Prop :=
  ∃ ts, tokens source = .ok ts ∧ ts.map (·.kind) = kinds ++ [.stop]

theorem Spells.beforeStop {source : String} {kinds : List TokenKind} (h : Spells source kinds) :
    ∃ ts, tokens source = .ok ts ∧ (Script.beforeStop ts).map (·.kind) = kinds := by
  obtain ⟨ts, hts, hkinds⟩ := h
  obtain ⟨before, span, rfl, hbefore⟩ := tokensFrom_ends hts
  rw [List.map_append, List.map_singleton] at hkinds
  refine ⟨_, hts, ?_⟩
  rw [beforeStop_append span hbefore]
  exact List.append_inj_left' hkinds rfl

theorem swappable_same (D : String → Prop) : Swappable SameName D fun text => [.name text] where
  derives text us hus := by
    obtain ⟨⟨_, span⟩, rfl, rfl⟩ := List.map_eq_singleton_iff.1 hus
    exact ⟨_, .name text span, span, rfl⟩
  starts text := ⟨_, [], rfl, by simp⟩
  stays _ _ := rfl

theorem swaps_same (h : us.map (·.kind) = ts.map (·.kind)) : Swaps (fun text => [.name text]) ts us := by
  have hkind : TokenKind.swapped (fun text => [.name text]) = fun kind => [kind] := by
    funext kind
    cases kind <;> rfl
  rw [Swaps, h, hkind, List.flatMap_singleton']

theorem Derives.elsewhere {phrase : Phrase} {D : String → Prop} (h : Derives ts phrase)
    (hus : us.map (·.kind) = ts.map (·.kind)) (hdefs : ∀ name ∈ phrase.definitions, D name) :
    phrase.DerivesLike SameName D us :=
  h.swapped (swappable_same D) hdefs (swaps_same hus)

def inlining (name : String) (value : List TokenKind) (text : String) : List TokenKind :=
  if text = name then .openBracket :: (value ++ [.closeBracket]) else [.name text]

theorem swappable_inlining (name : String) {vs : List Token} {value : Atom} (h : Derives vs (.atom value))
    (hdefs : value.definitions = []) :
    Swappable (Inlined name value) (· ≠ name) (inlining name (vs.map (·.kind))) where
  derives text us hus := by
    unfold inlining at hus
    unfold Inlined
    split at hus
    · next htext =>
      obtain ⟨⟨_, opening⟩, behind, rfl, rfl, hbehind⟩ := List.map_eq_cons_iff.1 hus
      obtain ⟨inner, close, rfl, hinner, hclose⟩ := List.map_eq_append_iff.1 hbehind
      obtain ⟨⟨_, closing⟩, rfl, rfl⟩ := List.map_eq_singleton_iff.1 hclose
      have hnone : ∀ name ∈ value.definitions, False := by simp [hdefs]
      obtain ⟨value', hvalue', hlike⟩ := h.elsewhere hinner hnone
      have helement : Derives (inner ++ []) (.element (.apply (.atom value') [])) :=
        .apply (.plain hvalue') .noArgs
      rw [List.append_nil] at helement
      refine ⟨value'.bracketed, .subScript opening closing (.single helement), ?_⟩
      rw [if_pos htext]
      exact ⟨value', hlike, rfl⟩
    · next htext =>
      obtain ⟨⟨_, span⟩, rfl, rfl⟩ := List.map_eq_singleton_iff.1 hus
      refine ⟨_, .name text span, ?_⟩
      rw [if_neg htext]
      exact ⟨span, rfl⟩
  starts text := by
    unfold inlining
    split
    · exact ⟨_, _, rfl, by simp⟩
    · exact ⟨_, [], rfl, by simp⟩
  stays text htext := if_neg htext

theorem Derives.andFirst {head : Head} {first : Element} {rest : List Element} (semicolon : Span)
    (hhead : Derives ts (.head head)) (h : Derives us (.elements first rest)) :
    Derives (ts ++ ⟨.semicolon, semicolon⟩ :: us) (.elements (.andThen head [] first) rest) := by
  have hfirst {vs : List Token} (hvs : Derives vs (.element first)) :
      Derives (ts ++ ⟨.semicolon, semicolon⟩ :: vs) (.element (.andThen head [] first)) := by
    simpa using Derives.andThen semicolon hhead .noArgs hvs
  cases h with
  | single helement => exact .single (hfirst helement)
  | comma comma helement hrest => simpa using Derives.comma comma (hfirst helement) hrest

theorem kinds_definition {name doc : String} {atom script : List TokenKind}
    (h : ts.map (·.kind) = .definition :: .name name :: .text doc :: (atom ++ .semicolon :: script)) :
    ∃ (spans : Span × Span × Span × Span) (vs ss : List Token),
      ts = ⟨.definition, spans.1⟩ :: ⟨.name name, spans.2.1⟩ :: ⟨.text doc, spans.2.2.1⟩ ::
        vs ++ ⟨.semicolon, spans.2.2.2⟩ :: ss ∧ vs.map (·.kind) = atom ∧ ss.map (·.kind) = script := by
  obtain ⟨⟨_, opening⟩, ts₁, rfl, rfl, h₁⟩ := List.map_eq_cons_iff.1 h
  obtain ⟨⟨_, span⟩, ts₂, rfl, rfl, h₂⟩ := List.map_eq_cons_iff.1 h₁
  obtain ⟨⟨_, quoted⟩, ts₃, rfl, rfl, h₃⟩ := List.map_eq_cons_iff.1 h₂
  obtain ⟨vs, ts₄, rfl, hvs, h₄⟩ := List.map_eq_append_iff.1 h₃
  obtain ⟨⟨_, semicolon⟩, ss, rfl, rfl, hss⟩ := List.map_eq_cons_iff.1 h₄
  exact ⟨(opening, span, quoted, semicolon), vs, ss, rfl, hvs, hss⟩

variable {name doc : String} {span : Span} {value : Atom} {first : Element} {rest : List Element}

theorem eval_definition_eq_ok
    (h : Script.eval p ⟨.andThen (.definition name span doc value) [] first, rest, none⟩ s = .ok x s') :
    s.1.lookup? name = none ∧ ∃ v s₁, value.eval p s = .ok v s₁ ∧ s₁.1.lookup? name = none ∧
      (do
        let x ← holding [Value.define name doc v] (first.eval p)
        (← evalRest p (.start x) rest).result : Act Scope Value)
        (s₁.1.extend [(name, (Value.define name doc v).copy)], s₁.2) = .ok x s' := by
  have heval : Script.eval p ⟨.andThen (.definition name span doc value) [] first, rest, none⟩ =
      ((Head.definition name span doc value).eval p >>= fun v => do
        let x ← holding [v] (first.eval p)
        (← evalRest p (.start x) rest).result) := by
    simp only [Script.eval, Element.eval, applyAll, bind_assoc, pure_bind, bind_pure]
  rw [heval] at h
  obtain ⟨y, s₂, hhead, hrest⟩ := bind_eq_ok_iff.1 h
  rw [Head.eval, bind_of_ok look_run] at hhead
  cases hlookup : s.1.lookup? name with
  | some known =>
    rw [hlookup] at hhead
    cases hhead
  | none =>
    rw [hlookup] at hhead
    obtain ⟨v, s₁, hvalue, hdefine⟩ := bind_eq_ok_iff.1 hhead
    obtain ⟨rfl, scope, hscope, rfl⟩ := define_eq_ok_iff.1 hdefine
    obtain ⟨hunknown, rfl⟩ := Scope.define_eq_ok_iff.1 hscope
    exact ⟨rfl, v, s₁, hvalue, hunknown, hrest⟩

theorem Atom.scope_eq {v : Value} (hdefs : value.definitions = []) (h : value.eval p s = .ok v s') : s'.1 = s.1 := by
  have hrecords := value.records_eval (p := p) s
  have hstate := hrecords.state
  have hnone := hrecords.all _ _ h
  rw [hdefs, List.map_eq_nil_iff] at hnone
  rw [h, hnone] at hstate
  exact hstate

theorem definitions_ne {values : List Value} {known : Value} (hknown : s.1.lookup? name = some known) (h : (do
      let x ← holding values (first.eval p)
      (← evalRest p (.start x) rest).result : Act Scope Value) s = .ok x s') :
    ∀ other ∈ (Phrase.elements first rest).definitions, other ≠ name := by
  obtain ⟨y, s₁, hfirst, hrest⟩ := bind_eq_ok_iff.1 h
  obtain ⟨flow, s₂, hrest, -⟩ := bind_eq_ok_iff.1 hrest
  have hrecords : Records first.definitions (holding values (first.eval p)) s _ :=
    .holding (first.records_eval _)
  have hrecords' := restRecords_eval (p := p) (.start y) rest s₁
  have hscope : s₁.1 = _ := hfirst ▸ hrecords.state
  rintro _ hmem rfl
  obtain hmem | hmem := List.mem_append.1 hmem
  · rw [← hrecords.all _ _ hfirst] at hmem
    obtain ⟨entry, hentry, rfl⟩ := List.mem_map.1 hmem
    rw [hrecords.admits.unknown entry hentry] at hknown
    cases hknown
  · rw [← hrecords'.all _ _ hrest] at hmem
    obtain ⟨entry, hentry, rfl⟩ := List.mem_map.1 hmem
    have hunknown := hrecords'.admits.unknown entry hentry
    rw [hscope, Scope.lookup?_extend_eq_none_iff] at hunknown
    rw [hunknown.2] at hknown
    cases hknown

theorem Instead.of_new (hready : registry.Ready) {scope : Scope}
    (hscope : scope.Within registry (Value.Built registry false)) (hunknown : scope.lookup? name = none)
    {stored : Value} (hstored : stored.copy = stored) :
    Instead scope name stored (scope.extend [(name, stored)]) scope where
  kept hknown := by
    rw [Scope.lookup?_extend_ne]
    · exact hknown
    · rintro rfl
      rw [hunknown] at hknown
      cases hknown
  named := by rw [Scope.lookup?_extend_self hunknown, hstored]
  others {other} hother := by
    rw [Scope.lookup?_extend_ne hother]
    cases hknown : scope.lookup? other with
    | none => exact .none
    | some known => exact .some (((closed_built registry 0).lookup hscope hknown).twin hready)

/-- Elements behind a definition come to a twin of what they come to with the atom in the place of the
name. -/
theorem comes_of_definition (hregistry : Registry.standard = .ok registry) {scope : Scope}
    (hscope : scope.Within registry (Value.Built registry false)) (himplied : name ∉ impliedNames)
    (hdefs : value.definitions = []) {n : Nat} {w : World}
    (h : Script.eval (puller n) ⟨.andThen (.definition name span doc value) [] first, rest, none⟩ (scope, w) =
      .ok x s') {first' : Element} {rest' : List Element} (hfirst : first.Like (Inlined name value) (· ≠ name) first')
    (hrest : ElementsLike (Inlined name value) (· ≠ name) rest rest') (w' : World) :
    ∃ y t, Comes (fun k => Script.eval (puller k) ⟨first', rest', none⟩) (scope, w') (.ok y t) ∧
      Value.Twin false x y := by
  obtain ⟨hunknown, v, s₁, hvalue, -, hbehind⟩ := eval_definition_eq_ok h
  have hv : v.Built registry false := by
    have hleaves := (closed_built registry n).atom value hscope () w trivial
    rw [hvalue] at hleaves
    exact hleaves.1.1
  have hstored := ((hv.define name doc).sealed hregistry).copy_eq
  rw [Atom.scope_eq hdefs hvalue, hstored] at hbehind
  have hfollows : Follows (Inlined name value) (· ≠ name) (Instead scope name (Value.define name doc v)) :=
    Instead.follows hunknown himplied hvalue fun hy => .definedLeft _ _ hy
  have hcarried := Carried.bind ((hfollows.element n hfirst).holdingLeft [Value.define name doc v])
    fun _ _ hx => .bind (hfollows.rest n hrest (flowStart_twin hx)) fun _ _ hflow => .flowResult hflow
  obtain ⟨y, t, hcomes, hxy, -⟩ := hcarried
    (.of_new (Registry.ready_of_standard hregistry) hscope hunknown hstored) hbehind w'
  refine ⟨y, t, hcomes.congr fun k => ?_, hxy⟩
  simp only [Script.eval, bind_pure]

end Script

theorem Registry.lookup?_implied (h : Registry.standard = .ok registry) :
    ∀ name ∈ Script.impliedNames, registry.lookup? name ≠ none := by
  have hall : ∀ name ∈ Script.impliedNames, ∃ module ∈ Catalogue.standard,
      ∃ builtin ∈ module.builtins, builtin.name = name := by decide +kernel
  intro name hname
  obtain ⟨module, hmodule, builtin, hbuiltin, rfl⟩ := hall name hname
  obtain ⟨sig, hoffers⟩ := offers_of_ofModules h hmodule hbuiltin
  simp [hoffers.found]

namespace Application

open Script

variable {app : Application}

theorem build_eq_ok_iff {p : Puller} {source : String} {app' : Application} {w w' : World} :
    build p source (app, w) = .ok () (app', w') ↔ ∃ ts v s, tokens source = .ok ts ∧
      (ofTokens ts).eval p (Setting.hold (held app.root) (app.scope, w)) = .ok v s ∧
      app' = { app with scope := s.1, root := some v } ∧ w' = { s.2 with around := w.around } := by
  unfold build parse ofSource
  cases tokens source with
  | error error =>
    have hrun : (Act.ofExcept (Except.map ofTokens (.error error)) : Act Application Script) (app, w) =
        .error (.failed error) (app, w) := rfl
    rw [bind_assoc, bind_of_error hrun]
    simp
  | ok ts =>
    have hrun : (Act.ofExcept (Except.map ofTokens (.ok ts)) : Act Application Script) (app, w) =
        .ok (ofTokens ts) (app, w) := rfl
    rw [bind_assoc, bind_of_ok hrun, bind_run, onScope_run]
    cases heval : (ofTokens ts).eval p (Setting.hold (held app.root) (app.scope, w)) with
    | ok v s =>
      constructor
      · rintro ⟨⟩
        exact ⟨ts, v, s, rfl, heval, rfl, rfl⟩
      · rintro ⟨_, _, _, ⟨⟩, hok, rfl, rfl⟩
        cases heval.symm.trans hok
        rfl
    | error stop s => simp [Result.on, heval]

/-- Whatever a run of an application writes, and however it ends, a run of the other does so too, given
enough fuel. -/
def RunsAs (app other : Application) : Prop :=
  ∀ ⦃options : Options⦄ ⦃reads : List Read⦄ ⦃sink : Sink⦄ ⦃w : World⦄ ⦃fuel : Nat⦄ ⦃bytes : Bytes⦄
    ⦃stop : Option Stop⦄, Writes fuel reads sink ({ app with options }, w) bytes stop →
    stop ≠ some .outOfFuel →
    ∃ least, ∀ fuel, least ≤ fuel → Writes fuel reads sink ({ other with options }, w) bytes stop

theorem Within.uses_eq_nil (hready : registry.Ready)
    (h : app.Within registry (Value.Built registry false)) : Value.usesAll (held app.scope) = [] := by
  refine (Value.AllTwin.self fun value hvalue => ?_).usage.2 rfl
  obtain ⟨entry, hentry, rfl⟩ := List.mem_map.1 hvalue
  exact (h.1.2 entry hentry).twin hready

theorem runsAs_of_twin (hready : registry.Ready) {other : Application}
    (happ : app.Within registry (Value.Built registry false))
    (hother : other.Within registry (Value.Built registry false))
    (hroot : Value.OptionTwin false app.root other.root) : RunsAs app other := by
  intro options reads sink w fuel bytes stop hwrites hended
  have htwin : twin true { app with options } { other with options } :=
    ⟨rfl, hroot.inWorld, (happ.uses_eq_nil hready).trans (hother.uses_eq_nil hready).symm⟩
  exact writes_of_twin htwin hwrites hended

/-- A script that first defines a name for an atom and then goes on, and what comes after the definition
with the atom in brackets in the place of the name. If the first is built then so is the other, given
enough fuel; what they build has one type, and a run of one writes what a run of the other does, and ends
in the same way. -/
theorem definition_transparent {registry : Registry} (hregistry : Registry.standard = .ok registry)
    {options : Options} {app : Application} (happ : Scripted registry options app) {name doc : String}
    {atom script : List Token} {value : Atom} {first : Element} {rest : List Element}
    (hatom : Derives atom (.atom value)) (hplain : ∀ t ∈ atom, t.kind ≠ .definition)
    (hscript : Derives script (.elements first rest)) {source other : String}
    (hsource : Spells source (.definition :: .name name :: .text doc ::
      (atom.map (·.kind) ++ .semicolon :: script.map (·.kind))))
    (hother : Spells other ((script.map (·.kind)).flatMap (·.swapped (inlining name (atom.map (·.kind))))))
    {fuel : Nat} {w w' : World} {app' : Application}
    (hbuild : build (puller fuel) source (app, w) = .ok () (app', w')) :
    ∃ app'', (∃ least, ∀ fuel, least ≤ fuel → ∃ w'', build (puller fuel) other (app, w) = .ok () (app'', w'')) ∧
      app''.root.map Value.ty = app'.root.map Value.ty ∧ RunsAs app' app'' ∧ RunsAs app'' app' := by
  have hready := Registry.ready_of_standard hregistry
  have hwithin := happ.built_within
  obtain ⟨ts, hts, hkinds⟩ := hsource.beforeStop
  obtain ⟨us, hus, hkinds'⟩ := hother.beforeStop
  -- The tokens of the script are those of a definition, a semicolon and what goes on behind it.
  obtain ⟨⟨opening, span, quoted, semicolon⟩, vs, ss, hwhole, hvs, hss⟩ := kinds_definition hkinds
  have hnone : ∀ name ∈ (Phrase.atom value).definitions, False := by
    simp [hatom.definitions_eq_nil hplain]
  obtain ⟨value', hvalue', -⟩ := hatom.elsewhere hvs hnone
  obtain ⟨first', rest', hscript', -⟩ := hscript.elsewhere (D := fun _ => True) hss fun _ _ => trivial
  have hdefs : value'.definitions = [] := by
    refine hvalue'.definitions_eq_nil fun t ht hkind => ?_
    have hmem : TokenKind.definition ∈ vs.map (·.kind) := List.mem_map.2 ⟨t, ht, hkind⟩
    obtain ⟨t', ht', hsame⟩ := List.mem_map.1 (hvs ▸ hmem)
    exact hplain t' ht' hsame
  have hderives : Derives (Script.beforeStop ts)
      (.elements (.andThen (.definition name span doc value') [] first') rest') := by
    rw [hwhole]
    exact .andFirst semicolon (.definition opening span quoted name doc hvalue') hscript'
  obtain ⟨_, v, s, hts', heval, rfl, -⟩ := build_eq_ok_iff.1 hbuild
  cases hts.symm.trans hts'
  rw [hderives.ofTokens] at heval
  -- What goes on behind it is built with the atom in the place of the name.
  obtain ⟨hunknown, x, s₁, -, hnew, hbehind⟩ := eval_definition_eq_ok heval
  have hne := definitions_ne (Scope.lookup?_extend_self hnew) hbehind
  have himplied : name ∉ impliedNames := by
    intro hmem
    have hfind : app.scope.registry.find? name = none := (Scope.lookup?_eq_none_iff.1 hunknown).2
    refine Registry.lookup?_implied hregistry name hmem ?_
    rw [Registry.lookup?, ← hwithin.1.1, hfind, Option.map_none]
  have hswaps : Swaps (inlining name (vs.map (·.kind))) ss (Script.beforeStop us) := by
    rw [Swaps, hss, hvs]
    exact hkinds'
  obtain ⟨first'', rest'', hderives', hfirst, hrest⟩ :=
    hscript'.swapped (swappable_inlining name hvalue' hdefs) hne hswaps
  obtain ⟨y, t, hcomes, htwin⟩ := comes_of_definition hregistry hwithin.1 himplied hdefs heval hfirst hrest
    { w with around := held app.root :: w.around }
  obtain ⟨least, hleast⟩ := hcomes.enough
  have hbuilds (fuel : Nat) (hfuel : least ≤ fuel) : build (puller fuel) other (app, w) =
      .ok () ({ app with scope := t.1, root := some y }, { t.2 with around := w.around }) := by
    refine build_eq_ok_iff.2 ⟨us, y, t, hus, ?_, rfl, rfl⟩
    rw [hderives'.ofTokens]
    exact hleast fuel hfuel
  have happ' := (happ.built hbuild).built_within
  have happ'' := (happ.built (hbuilds least (Nat.le_refl least))).built_within
  refine ⟨_, ⟨least, fun fuel hfuel => ⟨_, hbuilds fuel hfuel⟩⟩, ?_, ?_, ?_⟩
  · exact congrArg some htwin.ty_eq.symm
  · exact runsAs_of_twin hready happ' happ'' (.some htwin)
  · exact runsAs_of_twin hready happ'' happ' (.some htwin.symm)

theorem definition_transparent_surround :
    let app : Application := { scope := { registry := Registry.standard.toOption.getD {} } }
    ∃ app' w', build (puller 9) "def mark :a mark: :>:; surround mark mark" (app, {}) = .ok () (app', w') ∧
      ∃ app'', (∃ least, ∀ fuel, least ≤ fuel →
          ∃ w'', build (puller fuel) "surround [:>:] [:>:]" (app, {}) = .ok () (app'', w'')) ∧
        app''.root.map Value.ty = app'.root.map Value.ty ∧ RunsAs app' app'' ∧ RunsAs app'' app' := by
  intro app
  have hregistry : Registry.standard = .ok (Registry.standard.toOption.getD {}) := by
    obtain ⟨registry, hstandard⟩ := Registry.exists_standard
    rw [hstandard]
    rfl
  have hbuilds : Result.answered
      (build (puller 9) "def mark :a mark: :>:; surround mark mark" (app, {})) = true := by decide +kernel
  obtain ⟨_, ⟨app', w'⟩, hbuild⟩ := Result.answered_iff.1 hbuilds
  have hatom : Derives [⟨.text ">", default⟩] (.atom (.text ">")) := .text ">" default
  have hmark : Derives [⟨.name "mark", default⟩] (.atom (.name "mark" default)) := .name "mark" default
  have hscript : Derives [⟨.name "surround", default⟩, ⟨.name "mark", default⟩, ⟨.name "mark", default⟩]
      (.elements (.apply (.atom (.name "surround" default))
        [.name "mark" default, .name "mark" default]) []) :=
    .single (.apply (.plain (.name "surround" default)) (.arg hmark (.arg hmark .noArgs)))
  have hsource : Spells "def mark :a mark: :>:; surround mark mark" [.definition, .name "mark", .text "a mark",
      .text ">", .semicolon, .name "surround", .name "mark", .name "mark"] := ⟨_, rfl, rfl⟩
  have hother : Spells "surround [:>:] [:>:]" [.name "surround", .openBracket, .text ">", .closeBracket,
      .openBracket, .text ">", .closeBracket] := ⟨_, rfl, rfl⟩
  exact ⟨app', w', hbuild,
    definition_transparent hregistry .new hatom (by simp) hscript hsource hother hbuild⟩

end Application

end PullScript
