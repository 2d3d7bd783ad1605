import PullScript.Session.Step

namespace PullScript.Session

open Act

/-- Streams a text until it ends, fails or has given enough bytes. -/
def dumpText (p : Puller) (limit : Nat) : Act Value Dump :=
  loop (fun bytes => do
    match ← attempt p.textEnded with
    | .error stop => return .inr (.text bytes (.stopped stop))
    | .ok true => return .inr (.text bytes .complete)
    | .ok false =>
      if limit ≤ bytes.length then return .inr (.text bytes .more)
      match ← capture {} p.stream with
      | (chunk, none) => return .inl (bytes ++ chunk)
      | (chunk, some stop) => return .inr (.text (bytes ++ chunk) (.stopped stop))) p.fuel []

/-- How a list of which enough items are known goes on. -/
def endingOf (p : Puller) : Act Value Ending := do
  match ← attempt p.listEnded with
  | .error stop => return .stopped stop
  | .ok true => return .complete
  | .ok false => return .more

/-- Takes a value apart; lists are nested at most `depth` deep. -/
def dump (p : Puller) (itemLimit byteLimit : Nat) : (depth : Nat) → Act Value Dump
  | 0 => outOfFuel
  | depth + 1 => do
    let value ← look
    match value.kind with
    | .num =>
      match ← attempt p.number with
      | .ok n => return .number n
      | .error stop => return .unread stop
    | .str => dumpText p byteLimit
    | .fn => return .function value.ty
    | .lst =>
      loop (fun items => do
        if itemLimit ≤ items.length then return .inr (.list items.reverse (← endingOf p))
        match ← attempt p.next with
        | .error stop => return .inr (.list items.reverse (.stopped stop))
        | .ok none => return .inr (.list items.reverse .complete)
        | .ok (some item) =>
          let (found, _) ← aside item (dump p itemLimit byteLimit depth)
          return .inl (found :: items)) p.fuel []

end PullScript.Session
