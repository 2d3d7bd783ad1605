import PullScript.Application
import PullScript.CommandLine.Message
import PullScript.Proofs.Eval.Steps
import PullScript.Proofs.Script.Reading
import PullScript.Proofs.Script.Tokens

namespace PullScript

open Act

variable {error : Error} {span : Span} {source : String}

namespace Script

variable {P : Span → Prop} {stop : Span} {ts : List Token}

structure Placed (P : Span → Prop) (script : Script) : Prop where
  first : script.first.Placed P
  rest : AllPlaced P script.rest
  behind : ∀ found ∈ script.behind, P found.span

theorem breakBehind_placed (h : TokensPlaced P stop ts) : ∀ found ∈ breakBehind stop ts, P found.span := by
  intro found hfound
  unfold breakBehind at hfound
  split at hfound
  · cases hfound
  · cases hfound
    exact h.first
  · cases hfound
    exact h.unexpected _

theorem ofTokens_placed {tokens : List Token} (h : TokensPlaced P (stopSpan tokens) (beforeStop tokens)) :
    (ofTokens tokens).Placed P := by
  cases hread : readElements (stopSpan tokens) (5 * (beforeStop tokens).length + 5) (beforeStop tokens) with
  | mk first others =>
    obtain ⟨hfirst, hrest, hbehind⟩ := ((reads _ _).elements
      (hread.trans rfl : _ = (first, others.1, others.2))).2 h
    have heq : ofTokens tokens = ⟨first, others.1, breakBehind (stopSpan tokens) others.2⟩ := by
      rw [ofTokens, hread]
    rw [heq]
    exact ⟨hfirst, hrest, breakBehind_placed hbehind⟩

def Fits (P : Span → Prop) (error : Error) : Prop :=
  ∀ span, error.span? = some span → P span

theorem fits_of_placeless (h : error.Placeless) : Fits P error := by
  intro span hspan
  rw [show error.span? = none from h] at hspan
  cases hspan

theorem fits_malformed {cause : Malformed} (h : P span) : Fits P (.malformed cause span) := by
  rintro _ ⟨⟩
  exact h

section

variable {p : Puller} {loud : Bool} {σ : Type}

theorem lookupAt_steps (name : String) (hspan : P span) : Steps (Fits P) loud (lookupAt name span) := by
  refine .bind .look fun scope => ?_
  split
  · exact .pure _
  · exact .fail (fits_malformed hspan)

variable (h : p.Steady)
include h

theorem applyTo_steps [Holder σ] (f x : Value) : Steps (Fits P) loud (applyTo p f x : Act σ Value) :=
  .bind (.aside f ((h.apply x).imp fun _ => fits_of_placeless)) fun _ => .pure _

theorem operatorAt_steps (op : Operator) (hspan : P span) : Steps (Fits P) loud (operatorAt p op span) :=
  .bind (lookupAt_steps _ hspan) fun f => .bind (lookupAt_steps _ hspan) fun flip => applyTo_steps h flip f

theorem flowNext_steps [Holder σ] (element : Value) (flow : Flow) :
    Steps (Fits P) loud (flow.next p element : Act σ Flow) := by
  cases flow with
  | stages functions =>
    have hfunction : Steps (Fits P) loud (asFunction element : Act σ Value) :=
      .bind (.aside element ((requireKind_steps .fn).imp fun _ => fits_of_placeless)) fun _ => .pure _
    exact .bind hfunction fun _ => .pure _
  | value x => exact .bind (applyTo_steps h element x) fun _ => .pure _

omit h in
theorem flowResult_steps (flow : Flow) : Steps (Fits P) loud (flow.result : Act σ Value) := by
  unfold Flow.result
  split
  · exact .pure _
  · refine .ofExcept fun error herror => fits_of_placeless ?_
    unfold Value.chainOf at herror
    split at herror
    · split at herror
      · cases herror
      · cases herror
        rfl
    · cases herror
      rfl
  · exact .pure _

omit h in
theorem define_steps (name doc : String) (value : Value) : Steps (Fits P) loud (define name doc value) := by
  refine .bind .look fun scope => .bind (.ofExcept fun error herror => fits_of_placeless ?_) fun _ => ?_
  · unfold Scope.define at herror
    split at herror
    · cases herror
      rfl
    · cases herror
  · exact .bind (.put _) fun _ => .pure _

end

section

variable {p : Puller} {loud : Bool}

mutual

theorem Atom.eval_steps (h : p.Steady) : (atom : Atom) → atom.Placed P → Steps (Fits P) loud (atom.eval p)
  | .name _ _, hplaced => lookupAt_steps _ hplaced
  | .number _, _ => .pure _
  | .text _, _ => .pure _
  | .list items, hplaced => .bind (evalAll_steps h items hplaced) fun _ => .bind (.ofOption _) fun _ => .pure _
  | .subScript first rest, hplaced =>
    .bind (Element.eval_steps h first hplaced.1) fun _ => .bind (evalRest_steps h _ rest hplaced.2) flowResult_steps
  | .unclosed first rest _, hplaced =>
    .bind (Element.eval_steps h first hplaced.1) fun _ => .bind (evalRest_steps h _ rest hplaced.2.1) fun flow =>
      .bind (flowResult_steps flow) fun _ => .fail (fits_malformed hplaced.2.2)
  | .flippedOperator op _ _, hplaced =>
    .bind (operatorAt_steps h op hplaced.1) fun f => .bind (lookupAt_steps _ hplaced.2) fun flip =>
      applyTo_steps h flip f
  | .flipped arg _, hplaced =>
    .bind (Atom.eval_steps h arg hplaced.1) fun f => .bind (lookupAt_steps _ hplaced.2) fun flip =>
      applyTo_steps h flip f
  | .operator op arg _, hplaced =>
    .bind (Atom.eval_steps h arg hplaced.1) fun x => .bind (.holding [x] (operatorAt_steps h op hplaced.2)) fun f =>
      applyTo_steps h f x
  | .broken _, hplaced => .fail (fits_malformed hplaced)

theorem Head.eval_steps (h : p.Steady) : (head : Head) → head.Placed P → Steps (Fits P) loud (head.eval p)
  | .atom value, hplaced => Atom.eval_steps h value hplaced
  | .definition name _ doc value, hplaced =>
    have hdefine : Steps (Fits P) loud (do define name doc (← value.eval p)) :=
      .bind (Atom.eval_steps h value hplaced.2) fun v => define_steps name doc v
    .bind .look fun _ => .ite (.bind (.fail (fits_malformed hplaced.1)) fun _ => hdefine) hdefine

theorem Element.eval_steps (h : p.Steady) :
    (element : Element) → element.Placed P → Steps (Fits P) loud (element.eval p)
  | .apply head args, hplaced => .bind (Head.eval_steps h head hplaced.1) fun f => applyAll_steps h f args hplaced.2
  | .andThen head args next, hplaced =>
    .bind (Head.eval_steps h head hplaced.1) fun f => .bind (applyAll_steps h f args hplaced.2.1) fun value =>
      .holding [value] (Element.eval_steps h next hplaced.2.2)

theorem applyAll_steps (h : p.Steady) (f : Value) :
    (args : List Atom) → ArgsPlaced P args → Steps (Fits P) loud (applyAll p f args)
  | [], _ => .pure _
  | arg :: args, hplaced =>
    .bind (.holding [f] (Atom.eval_steps h arg hplaced.1)) fun x => .bind (applyTo_steps h f x) fun f' =>
      applyAll_steps h f' args hplaced.2

theorem evalAll_steps (h : p.Steady) :
    (elements : List Element) → AllPlaced P elements → Steps (Fits P) loud (evalAll p elements)
  | [], _ => .pure _
  | element :: rest, hplaced =>
    .bind (Element.eval_steps h element hplaced.1) fun value => .bind (.holding [value] (evalAll_steps h rest hplaced.2))
      fun _ => .pure _

theorem evalRest_steps (h : p.Steady) (flow : Flow) :
    (elements : List Element) → AllPlaced P elements → Steps (Fits P) loud (evalRest p flow elements)
  | [], _ => .pure _
  | element :: rest, hplaced =>
    .bind (.holding (held flow) (Element.eval_steps h element hplaced.1)) fun value =>
      .bind (flowNext_steps h value flow) fun flow' => evalRest_steps h flow' rest hplaced.2

end

theorem eval_steps {script : Script} (h : p.Steady) (hscript : script.Placed P) :
    Steps (Fits P) loud (script.eval p) := by
  refine .bind (Element.eval_steps h _ hscript.first) fun _ => .bind (evalRest_steps h _ _ hscript.rest) fun flow =>
    .bind (flowResult_steps flow) fun _ => ?_
  cases hbehind : script.behind with
  | none => exact .pure _
  | some found => exact .fail (fits_malformed (hscript.behind found hbehind))

end

def Inside (source : String) (span : Span) : Prop :=
  ∃ inside, span.Holds source.toList inside

theorem tokensPlaced_of_tokens {ts : List Token} (h : tokens source = .ok ts) :
    TokensPlaced (Inside source) (stopSpan ts) (beforeStop ts) := by
  have hlexed := lexed_tokensFrom 0 source.toList
  rw [show tokensFrom 0 0 source.toList = .ok ts from h] at hlexed
  obtain ⟨front, hts, hlaid⟩ := hlexed
  rw [Nat.zero_add] at hts
  obtain ⟨before, span, hends, hkind⟩ := tokensFrom_ends h
  obtain ⟨rfl, hstop⟩ := List.append_inj' (hends.symm.trans hts) rfl
  obtain rfl : span = ⟨byteCount source.toList, 0⟩ := by simpa using hstop
  have hbefore : beforeStop ts = before := hends ▸ beforeStop_append _ hkind
  have hstopSpan : stopSpan ts = ⟨byteCount source.toList, 0⟩ := by
    rw [stopSpan, hbefore, hends, List.drop_left]
  have hfits := hlaid.fits [] (List.append_nil _).symm rfl
  have hchain := hlaid.chain [] [] ⟨0, 0⟩ (List.append_nil _).symm rfl rfl .nil
  have hpairwise := (List.pairwise_append.1 (List.pairwise_cons.1 (pairwise_of_isChain hchain)).2).1
  rw [hbefore, hstopSpan]
  refine ⟨⟨[], source.toList, [], by simp, rfl⟩, fun t ht => ?_, ?_⟩
  · obtain ⟨lexeme, -, hholds, -⟩ := hfits t ht
    exact ⟨lexeme, hholds⟩
  · refine (List.pairwise_map.1 hpairwise).imp_of_mem fun {a b} ha hb hab => ?_
    obtain ⟨_, -, hholds, -⟩ := hfits a ha
    obtain ⟨_, -, hholds', -⟩ := hfits b hb
    refine Span.exists_holds hholds.offset_boundary hholds'.stop_boundary ?_
    simp only [Span.stop] at hab ⊢
    omega

theorem fits_of_tokens_error (h : tokens source = .error error) : Fits (Inside source) error := by
  have hlexed := lexed_tokensFrom 0 source.toList
  rw [show tokensFrom 0 0 source.toList = .error error from h] at hlexed
  obtain ⟨before, rest, front, hsource, -, hstuck⟩ := hlexed
  rw [Nat.zero_add] at hstuck
  obtain ⟨body, rfl, -, rfl⟩ | ⟨c, after, rfl, -, rfl⟩ := hstuck
  · exact fits_malformed ⟨':' :: body, before, [], by simp [hsource], rfl⟩
  · exact fits_malformed ⟨[c], before, after, by simp [hsource], by simp [byteCount]⟩

end Script

namespace Application

open Script

theorem parse_steps (fuel : Nat) (source : String) :
    Steps (Fits (Inside source)) true (parse (puller fuel) source) := by
  unfold parse ofSource
  cases htokens : tokens source with
  | error error =>
    change Steps _ _ (fail error)
    exact .fail (fits_of_tokens_error htokens)
  | ok ts =>
    have hplaced := ofTokens_placed (tokensPlaced_of_tokens htokens)
    change Steps _ _ (onScope ((ofTokens ts).eval (puller fuel)))
    exact .bind .look fun app => (eval_steps (steady_puller fuel) hplaced).within app.scope _

theorem build_steps (fuel : Nat) (source : String) :
    Steps (Fits (Inside source)) true (build (puller fuel) source) :=
  .bind (parse_steps fuel source) fun _ => .change _

theorem excerpt_of_holds {before inside after : List Char} (hsource : source.toList = before ++ inside ++ after) :
    CommandLine.excerpt source ⟨byteCount before, byteCount inside⟩ =
      "   | " ++ String.ofList ((CommandLine.linesOf source).getD (before.count '\n') []) ++ "\n   | " ++
        String.ofList (List.replicate (Span.lastLine before).length ' ' ++
          List.replicate (max inside.length 1) '^') := by
  have hholds : Span.Holds ⟨byteCount before, byteCount inside⟩ source.toList inside :=
    ⟨before, after, hsource, rfl⟩
  rw [CommandLine.excerpt, hholds.slice?,
    Span.lineColumn_of_append (hsource.trans (List.append_assoc ..)) rfl]
  rfl

/-- Errors of scripts point into the script: a script that does not build because of what is written
at some place fails with a range of whole characters of it, and the carets of its excerpt stand
under these characters. Places are told by lines and columns, both from 1: lines count the line ends
before the place and columns the characters behind the last of them, and places further on have a
later line or, in the same line, a later column. -/
theorem build_error_inside (source : String) :
    (∀ fuel app w error s' span, build (puller fuel) source (app, w) = .error (.failed error) s' →
      error.span? = some span →
      span.offset + span.len ≤ byteCount source.toList ∧
      ∃ before inside after, source.toList = before ++ inside ++ after ∧
        span = ⟨byteCount before, byteCount inside⟩ ∧
        span.slice? source = some inside ∧
        CommandLine.excerpt source span =
          "   | " ++ String.ofList ((CommandLine.linesOf source).getD (before.count '\n') []) ++ "\n   | " ++
            String.ofList (List.replicate (Span.lastLine before).length ' ' ++
              List.replicate (max inside.length 1) '^')) ∧
    (∀ (before after : List Char) (length : Nat), source.toList = before ++ after →
      Span.lineColumn ⟨byteCount before, length⟩ source =
        (before.count '\n' + 1, (Span.lastLine before).length + 1)) ∧
    (∀ p q : Span, Span.Boundary source.toList p.offset → Span.Boundary source.toList q.offset →
      p.offset < q.offset →
      (p.lineColumn source).1 < (q.lineColumn source).1 ∨
        (p.lineColumn source).1 = (q.lineColumn source).1 ∧
          (p.lineColumn source).2 < (q.lineColumn source).2) := by
  refine ⟨?_, fun before after length hsource => Span.lineColumn_of_append hsource rfl,
    fun p q hp hq hlt => Span.lineColumn_lt hp hq hlt⟩
  intro fuel app w error s' span hfailed hspan
  have hfails := (build_steps fuel source).failsIn (fun _ => fits_of_placeless) (app, w)
  obtain ⟨inside, hholds⟩ := hfails.of_error hfailed span hspan
  have hslice := hholds.slice?
  have hle := hholds.stop_le
  obtain ⟨before, after, hsource, rfl⟩ := hholds
  exact ⟨hle, before, inside, after, hsource, rfl, hslice, excerpt_of_holds hsource⟩

/-- A literal on the second line that is not closed, with the carets under its two characters. -/
theorem build_error_inside_unclosed :
    CommandLine.excerpt "tonum,\n split :é" ⟨14, 3⟩ = "   |  split :é\n   |        ^^" ∧
      (⟨14, 3⟩ : Span).offset + (⟨14, 3⟩ : Span).len ≤ byteCount "tonum,\n split :é".toList := by
  have hbuild : build (puller 0) "tonum,\n split :é" (default, {}) =
      .error (.failed (.malformed .unclosedText ⟨14, 3⟩)) (default, {}) := by
    rfl
  obtain ⟨hle, _⟩ := (build_error_inside "tonum,\n split :é").1 0 default {} _ _ _ hbuild rfl
  exact ⟨by rfl, hle⟩

end Application

end PullScript
