namespace PullScript

/-- A type. A list type with no element types is that of a list of mixed elements, printed
`[_mixed]`. -/
inductive Ty where
  | unknown (name : String)
  | num
  | str (endless : Bool)
  | lst (elements : List Ty) (endless tuple : Bool)
  | arrow (arg result : Ty)
deriving Inhabited

inductive Ty.Kind where
  | unknown
  | num
  | str
  | lst
  | arrow
deriving DecidableEq, Repr

namespace Ty

def kind : Ty → Kind
  | unknown _ => .unknown
  | num => .num
  | str _ => .str
  | lst .. => .lst
  | arrow .. => .arrow

def listOf (elements : List Ty) (endless : Bool) : Ty :=
  .lst elements endless false

/-- The type `a -> b` of functions about which nothing is known. -/
def anyFunction : Ty :=
  .arrow (.unknown "a") (.unknown "b")

/-- The type `[a]` of lists about which nothing is known. -/
def anyList : Ty :=
  listOf [.unknown "a"] false

/-- The element types of a list or tuple; nothing else has any. -/
def elements : Ty → List Ty
  | lst elements _ _ => elements
  | _ => []

def arg? : Ty → Option Ty
  | arrow arg _ => some arg
  | _ => none

def result? : Ty → Option Ty
  | arrow _ result => some result
  | _ => none

/-- Whether a type is marked endless. Only texts and lists can be. -/
def isEndless : Ty → Bool
  | str endless => endless
  | lst _ endless _ => endless
  | _ => false

def isTuple : Ty → Bool
  | lst _ _ tuple => tuple
  | _ => false

def name? : Ty → Option String
  | unknown name => some name
  | _ => none

/-- A type with its endless mark set as given. Types that have no mark stay as they are. -/
def withEndless (endless : Bool) : Ty → Ty
  | str _ => str endless
  | lst elements _ tuple => lst elements endless tuple
  | other => other

/-- How many arguments a type takes before it gives something that is no function. -/
def arity : Ty → Nat
  | arrow _ result => result.arity + 1
  | _ => 0

/-- How many list types are nested inside one another, following first element types. -/
def listDepth : Ty → Nat
  | lst [] _ _ => 1
  | lst (first :: _) _ _ => first.listDepth + 1
  | _ => 0

mutual

def isConcrete : Ty → Bool
  | unknown _ => false
  | num => true
  | str _ => true
  | lst elements _ _ => allConcrete elements
  | arrow arg result => arg.isConcrete && result.isConcrete

def allConcrete : List Ty → Bool
  | [] => true
  | ty :: rest => ty.isConcrete && allConcrete rest

end

mutual

/-- A type with the name of an owner attached to each unknown, so that the unknowns of two builtins
differ. Printing shows only the part of a name before the first underscore. -/
def qualified (owner : String) : Ty → Ty
  | unknown name => unknown (name ++ "_" ++ owner)
  | num => num
  | str endless => str endless
  | lst elements endless tuple => lst (qualifiedAll owner elements) endless tuple
  | arrow arg result => arrow (arg.qualified owner) (result.qualified owner)

/-- Qualifies the unknowns of each type of a list. -/
def qualifiedAll (owner : String) : List Ty → List Ty
  | [] => []
  | ty :: rest => ty.qualified owner :: qualifiedAll owner rest

end

mutual

/-- The number of constructors and list positions of a type. -/
def size : Ty → Nat
  | unknown _ => 1
  | num => 1
  | str _ => 1
  | lst elements _ _ => sizeAll elements + 1
  | arrow arg result => arg.size + result.size + 1

/-- The number of constructors and list positions of a list of types. -/
def sizeAll : List Ty → Nat
  | [] => 0
  | ty :: rest => ty.size + sizeAll rest + 1

end

mutual

/-- Whether two types are identical, marks included. -/
def same : Ty → Ty → Bool
  | unknown x, unknown y => x == y
  | num, num => true
  | str e₁, str e₂ => e₁ == e₂
  | lst as e₁ t₁, lst bs e₂ t₂ => sameAll as bs && e₁ == e₂ && t₁ == t₂
  | arrow a₁ r₁, arrow a₂ r₂ => a₁.same a₂ && r₁.same r₂
  | _, _ => false

def sameAll : List Ty → List Ty → Bool
  | [], [] => true
  | a :: as, b :: bs => a.same b && sameAll as bs
  | _, _ => false

end

mutual

theorem same_iff (a b : Ty) : a.same b = true ↔ a = b := by
  cases a <;> cases b <;> simp [same]
  case lst as e₁ t₁ bs e₂ t₂ => simp [sameAll_iff as bs, and_assoc]
  case arrow a₁ r₁ a₂ r₂ => simp [same_iff a₁ a₂, same_iff r₁ r₂]

theorem sameAll_iff (as bs : List Ty) : sameAll as bs = true ↔ as = bs := by
  cases as <;> cases bs <;> simp [sameAll]
  case cons a as b bs => simp [same_iff a b, sameAll_iff as bs]

end

instance : DecidableEq Ty := fun a b => decidable_of_iff _ (same_iff a b)

end Ty

end PullScript
