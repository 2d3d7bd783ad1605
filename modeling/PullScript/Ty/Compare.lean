import PullScript.Ty.Basic

namespace PullScript.Ty

abbrev Known := List (String × Ty)

mutual

/-- Compares two types under the bindings `known`, and gives the bindings afterwards. -/
def compatible : Nat → Known → Ty → Ty → Option (Bool × Known)
  | 0, _, _, _ => none
  | fuel + 1, known, unknown x, unknown y =>
    if x = y then some (true, known)
    else match known.lookup x with
      | some bound => compatible fuel known bound (unknown y)
      | none =>
        match known.lookup y with
        | some bound => compatible fuel known (unknown x) bound
        | none => some (true, (x, unknown y) :: known)
  | fuel + 1, known, unknown x, b =>
    match known.lookup x with
    | some bound => compatible fuel known bound b
    | none => some (true, (x, b) :: known)
  | fuel + 1, known, a, unknown y =>
    match known.lookup y with
    | some bound => compatible fuel known a bound
    | none => some (true, (y, a) :: known)
  | _ + 1, known, num, num => some (true, known)
  | _ + 1, known, str _, str _ => some (true, known)
  | fuel + 1, known, lst as _ _, lst bs _ _ =>
    if as.isEmpty || bs.isEmpty then some (true, known)
    else if as.length = bs.length then compatibleAll fuel known as bs
    else some (false, known)
  | fuel + 1, known, arrow arg₁ result₁, arrow arg₂ result₂ =>
    match compatible fuel known arg₁ arg₂ with
    | some (true, known) => compatible fuel known result₁ result₂
    | other => other
  | _ + 1, known, _, _ => some (false, known)

/-- Compares the types of two lists pairwise, up to the first pair that differs. -/
def compatibleAll : Nat → Known → List Ty → List Ty → Option (Bool × Known)
  | 0, _, _, _ => none
  | fuel + 1, known, a :: as, b :: bs =>
    match compatible fuel known a b with
    | some (true, known) => compatibleAll fuel known as bs
    | other => other
  | _ + 1, known, _, _ => some (true, known)

end

/-- The depth that a comparison of two types reaches at most, if it ends: no two nested calls
compare the same parts under the same bindings, and there are no more bindings than unknowns. -/
def comparisonDepth (a b : Ty) : Nat :=
  2 * Nat.pow (a.size + b.size + 1) 3

/-- Whether two types are compatible, or nothing when the comparison goes round in circles. -/
def equals? (a b : Ty) : Option Bool :=
  (compatible (comparisonDepth a b) [] a b).map (·.1)

end PullScript.Ty
