import PullScript.Application

namespace PullScript.Session

inductive Adapter where
  | numberAsText
  | listAsText
  | textAsList
  /-- Items are coerced to the element types of a type. -/
  | listAs (ty : Ty)

def Adapter.kind : Adapter → Kind
  | numberAsText => .num
  | listAsText | listAs _ => .lst
  | textAsList => .str

def Adapter.adapt (value : Value) : Adapter → Value
  | numberAsText => .ofNumber value
  | listAsText => .ofList value
  | textAsList => .clustersOf value
  | listAs ty => .recast ty value 0

/-- How a value is made. Registers are named; those marked as taken are emptied, also when making
the value fails. -/
inductive Making where
  | number (n : Float)
  | text (bytes : Bytes)
  | chunks (parts : List Bytes)
  | input (reads : List Read)
  | metered (n : Float) (failure : Option String)
  | output (limit : Nat)
  /-- A list of taken items, with its element types if they are not to be found out. -/
  | list (items : List String) (elements : Option (List Ty))
  /-- A chain of taken functions. -/
  | chain (stages : List String)
  | builtin (name : String)
  /-- A builtin of the standard catalogue under another type. -/
  | head (name : String) (ty : Ty)
  /-- A taken value seen through an adapter. -/
  | wrap (value : String) (adapter : Adapter)
  /-- A taken value under a name. -/
  | define (value name doc : String)
  | copy (value : String)
  /-- A function applied to a taken argument. -/
  | apply (f arg : String)
  /-- A taken value coerced to a type. -/
  | coerce (value : String) (ty : Ty)
  /-- A taken value that must be of a kind. -/
  | into (value : String) (kind : Kind)
  | parse (source : String)
  | parseTokens (tokens : List Script.Token)
  | takeNumber (value : String)
  | current (value : String)
  | next (value : String)
  | root
  | lookup (name : String)
  | lookupUser (name : String)

inductive Question where
  | ty
  | debugText (layout : Layout)
  | number
  | stream
  | entire (limit : Nat)
  | ended
  | advance
  | rewind
  | count
  | isFinite
  | function
  /-- Everything in it, up to so many items of each list and bytes of each text. -/
  | dump (items bytes : Nat)

/-- What a session is asked for that concerns no single value. -/
inductive Request where
  /-- Empty a register. -/
  | drop (value : String)
  /-- How often was the number made under this name read? -/
  | reads (name : String)
  /-- How much of the input made under this name is kept, and how often was its reader asked? -/
  | cached (name : String)
  /-- What went into the output made under this name? -/
  | sunk (name : String)
  | build (source : String)
  | applicationTy
  | applicationText (layout : Layout)
  | run (reads : List Read) (limit : Nat)
  | userNames
  | options
  /-- Define a name for a taken value. -/
  | defineUser (name value : String)
  | about (name : String)
  | names

inductive Step where
  /-- Make a value and put it into a register. -/
  | make (how : Making) (place : String)
  | ask (value : String) (question : Question)
  | request (request : Request)

inductive Ending where
  | complete
  /-- There is more than was asked for. -/
  | more
  | stopped (stop : Stop)

inductive Dump where
  | number (n : Float)
  | unread (stop : Stop)
  | text (bytes : Bytes) (ending : Ending)
  | list (items : List Dump) (ending : Ending)
  | function (ty : Ty)

/-- What is said about a new value beyond its kind and type. -/
inductive Detail where
  | none
  | list (length : Nat)
  | chain (stages : List Ty)
  | head (builtin : Builtin) (bound : Nat)

inductive Answer where
  | made (kind : Kind) (ty : Ty) (detail : Detail)
  | nothing
  | done
  | valueTy (ty : Ty)
  | applicationTy (ty : Ty)
  | builtTy (ty : Ty)
  | debugText (text : String)
  | number (n : Float)
  /-- The bytes that were written, and what stopped the writing, if anything did. -/
  | written (bytes : Bytes) (stop : Option Stop)
  | ended (answer : Bool)
  | count (n : Nat)
  | finite (answer : Bool)
  | dump (found : Dump)
  | reads (n : Nat)
  | cached (size : Option Nat) (pulls : Nat)
  | userNames (names : List String)
  | names (names : List String)
  | options (options : Options)
  | about (entry : Option Registry.Entry)
  | stopped (stop : Stop)

end PullScript.Session
