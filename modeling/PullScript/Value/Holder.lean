import PullScript.Value.Basic

namespace PullScript

class Holder (σ : Type) where
  /-- The values that a state holds. -/
  held : σ → List Value

export Holder (held)

namespace Holder

variable {α β : Type}

instance : Holder Value := ⟨fun value => [value]⟩

instance : Holder (List Value) := ⟨id⟩

instance [Holder α] : Holder (Option α) :=
  ⟨fun
    | none => []
    | some a => held a⟩

instance [Holder α] [Holder β] : Holder (α × β) := ⟨fun (a, b) => held a ++ held b⟩

instance : Holder (Joiner Value) := ⟨fun joiner => held joiner.item⟩

instance : Holder (Init Value) := ⟨fun state => held state.held⟩

instance : Holder (Reverse Value) := ⟨fun state => held state.items⟩

instance : Holder Bool := ⟨fun _ => []⟩

instance : Holder Float := ⟨fun _ => []⟩

instance : Holder Nat := ⟨fun _ => []⟩

instance : Holder Bytes := ⟨fun _ => []⟩

instance : Holder Once := ⟨fun _ => []⟩

instance : Holder Cutter := ⟨fun _ => []⟩

instance : Holder Splitter := ⟨fun _ => []⟩

instance : Holder Concat := ⟨fun _ => []⟩

instance : Holder Take := ⟨fun _ => []⟩

end Holder

end PullScript
