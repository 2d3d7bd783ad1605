import PullScript.Error

namespace PullScript.Ty

/-- What a walk of a formal and an actual type side by side has found. -/
structure Match where
  known : List (String × Ty) := []
  /-- The endless mark of the actual type at the last place where the formal type has one set. -/
  endless : Bool := true

namespace Match

def bind (m : Match) (name : String) (actual : Ty) : Match :=
  match m.known.lookup name with
  | some _ => m
  | none => { m with known := (name, actual) :: m.known }

/-- Takes over the endless mark of the actual type where the formal type is marked endless. -/
def track (m : Match) (formalEndless : Bool) (actual : Ty) : Match :=
  if formalEndless then { m with endless := actual.isEndless } else m

mutual

def find (m : Match) (actual : Ty) : Ty → Match
  | .unknown name => m.bind name actual
  | .num => m
  | .str endless => m.track endless actual
  | .lst formals endless _ => (m.findAll actual.elements formals).track endless actual
  | .arrow arg result =>
    match actual with
    | .arrow actualArg actualResult => (m.find actualArg arg).find actualResult result
    | _ => m

def findAll (m : Match) (actuals : List Ty) : List Ty → Match
  | [] => m
  | formal :: formals =>
    match actuals with
    | [] => m
    | actual :: actuals => (m.find actual formal).findAll actuals formals

end

/-- What an unknown is bound to; itself when it is not. -/
def get (m : Match) (name : String) : Ty :=
  (m.known.lookup name).getD (.unknown name)

mutual

/-- A type with its unknowns replaced and its marks as they are. -/
def replace (m : Match) : Ty → Ty
  | .unknown name => m.get name
  | .num => .num
  | .str endless => .str endless
  | .lst elements endless tuple => .lst (m.replaceAll elements) endless tuple
  | .arrow arg result => .arrow (m.replace arg) (m.replace result)

def replaceAll (m : Match) : List Ty → List Ty
  | [] => []
  | ty :: rest => m.replace ty :: m.replaceAll rest

end

mutual

/-- A type with its unknowns replaced and its own marks set to the tracked one; tuples are always
finite. What an unknown is replaced by keeps its marks. -/
def build (m : Match) : Ty → Ty
  | .unknown name => m.get name
  | .num => .num
  | .str _ => .str m.endless
  | .lst elements _ tuple => .lst (m.buildAll elements) (!tuple && m.endless) tuple
  | .arrow arg result => .arrow (m.build arg) (m.build result)

def buildAll (m : Match) : List Ty → List Ty
  | [] => []
  | ty :: rest => m.build ty :: m.buildAll rest

end

end Match

/-- The type of a function of type `ty` applied to an argument of type `actual`; nothing when `ty`
is no function type. -/
def applied? (ty actual : Ty) : Option Ty :=
  match ty with
  | .arrow arg result => some ((Match.find {} actual arg).build result)
  | _ => none

/-- The type of a function applied to an argument, or an error when it is no function. -/
def applied (ty actual : Ty) : Except Error Ty :=
  match ty.applied? actual with
  | some result => .ok result
  | none => .error (.typeMismatch ty .anyFunction)

/-- A type with its unknowns replaced by the parts of `actual` in the same places. Its marks are its
own. -/
def instantiated (ty actual : Ty) : Ty :=
  (Match.find {} actual ty).replace ty

end PullScript.Ty
