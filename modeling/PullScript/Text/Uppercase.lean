import PullScript.Text.CodePoints

namespace PullScript.Text

/-- Runs of code points: an entry of the table is the first and the last one, the step between
neighbours and the distance to the upper case, or a single code point and the distance. -/
def runsOf (table : String) : List (Nat × Nat × Nat × Nat) :=
  (tableOf table).filterMap fun
    | [single, distance] => some (single, single, 1, distance)
    | [first, last, step, distance] => some (first, last, step, distance)
    | _ => none

/-- Runs of code points whose upper case lies above them. -/
def upperAbove : List (Nat × Nat × Nat × Nat) :=
  runsOf "b5-2e7 ff-79 180-c3 195-61 19a-a3 19b-a641 19e-82 1bf-38 23f-240-1-2a3f 250-2a1f
    251-2a1c 252-2a1e 25c-a54f 261-a54b 264-a567 265-a528 266-a544 26a-a544 26b-29f7 26c-a541
    271-29fd 27d-29e7 282-a543 287-a52a 29d-a515 29e-a512 345-54 37b-37d-1-82 3f2-7
    10d0-10fa-1-bc0 10fd-10ff-1-bc0 1c88-89c2 1d79-8a04 1d7d-ee6 1d8e-8a38 1f00-1f07-1-8
    1f10-1f15-1-8 1f20-1f27-1-8 1f30-1f37-1-8 1f40-1f45-1-8 1f51-1f57-2-8 1f60-1f67-1-8
    1f70-1f71-1-4a 1f72-1f75-1-56 1f76-1f77-1-64 1f78-1f79-1-80 1f7a-1f7b-1-70 1f7c-1f7d-1-7e
    1fb0-1fb1-1-8 1fd0-1fd1-1-8 1fe0-1fe1-1-8 1fe5-7 a794-30"

/-- Runs of code points whose upper case lies below them. -/
def upperBelow : List (Nat × Nat × Nat × Nat) :=
  runsOf "61-7a-1-20 e0-f6-1-20 f8-fe-1-20 101-12f-2-1 131-e8 133-137-2-1 13a-148-2-1 14b-177-2-1
    17a-17e-2-1 17f-12c 183-185-2-1 188-1 18c-1 192-1 199-1 1a1-1a5-2-1 1a8-1 1ad-1 1b0-1
    1b4-1b6-2-1 1b9-1 1bd-1 1c5-1 1c6-2 1c8-1 1c9-2 1cb-1 1cc-2 1ce-1dc-2-1 1dd-4f 1df-1ef-2-1
    1f2-1 1f3-2 1f5-1 1f9-21f-2-1 223-233-2-1 23c-1 242-1 247-24f-2-1 253-d2 254-ce 256-257-1-cd
    259-ca 25b-cb 260-cd 263-cf 268-d1 269-d3 26f-d3 272-d5 275-d6 280-da 283-da 288-da 289-45
    28a-28b-1-d9 28c-47 292-db 371-373-2-1 377-1 3ac-26 3ad-3af-1-25 3b1-3c1-1-20 3c2-1f
    3c3-3cb-1-20 3cc-40 3cd-3ce-1-3f 3d0-3e 3d1-39 3d5-2f 3d6-36 3d7-8 3d9-3ef-2-1 3f0-56 3f1-50
    3f3-74 3f5-60 3f8-1 3fb-1 430-44f-1-20 450-45f-1-50 461-481-2-1 48b-4bf-2-1 4c2-4ce-2-1 4cf-f
    4d1-52f-2-1 561-586-1-30 13f8-13fd-1-8 1c80-186e 1c81-186d 1c82-1864 1c83-1c84-1-1862
    1c85-1863 1c86-185c 1c87-1825 1c8a-1 1e01-1e95-2-1 1e9b-3b 1ea1-1eff-2-1 1fbe-1c25 214e-1c
    2170-217f-1-10 2184-1 24d0-24e9-1-1a 2c30-2c5f-1-30 2c61-1 2c65-2a2b 2c66-2a28 2c68-2c6c-2-1
    2c73-1 2c76-1 2c81-2ce3-2-1 2cec-2cee-2-1 2cf3-1 2d00-2d25-1-1c60 2d27-1c60 2d2d-1c60
    a641-a66d-2-1 a681-a69b-2-1 a723-a72f-2-1 a733-a76f-2-1 a77a-a77c-2-1 a77f-a787-2-1 a78c-1
    a791-a793-2-1 a797-a7a9-2-1 a7b5-a7c3-2-1 a7c8-a7ca-2-1 a7cd-a7db-2-1 a7f6-1 ab53-3a0
    ab70-abbf-1-97d0 ff41-ff5a-1-20 10428-1044f-1-28 104d8-104fb-1-28 10597-105a1-1-27
    105a3-105b1-1-27 105b3-105b9-1-27 105bb-105bc-1-27 10cc0-10cf2-1-40 10d70-10d85-1-20
    118c0-118df-1-20 16e60-16e7f-1-20 16ebb-16ed3-1-1b 1e922-1e943-1-22"

/-- Code points whose upper case is several characters. -/
def upperSeveral : List (Nat × List Nat) :=
  (tableOf "df-53-53 149-2bc-4e 1f0-4a-30c 390-399-308-301 3b0-3a5-308-301 587-535-552
    1e96-48-331 1e97-54-308 1e98-57-30a 1e99-59-30a 1e9a-41-2be 1f50-3a5-313 1f52-3a5-313-300
    1f54-3a5-313-301 1f56-3a5-313-342 1f80-1f08-399 1f81-1f09-399 1f82-1f0a-399 1f83-1f0b-399
    1f84-1f0c-399 1f85-1f0d-399 1f86-1f0e-399 1f87-1f0f-399 1f88-1f08-399 1f89-1f09-399
    1f8a-1f0a-399 1f8b-1f0b-399 1f8c-1f0c-399 1f8d-1f0d-399 1f8e-1f0e-399 1f8f-1f0f-399
    1f90-1f28-399 1f91-1f29-399 1f92-1f2a-399 1f93-1f2b-399 1f94-1f2c-399 1f95-1f2d-399
    1f96-1f2e-399 1f97-1f2f-399 1f98-1f28-399 1f99-1f29-399 1f9a-1f2a-399 1f9b-1f2b-399
    1f9c-1f2c-399 1f9d-1f2d-399 1f9e-1f2e-399 1f9f-1f2f-399 1fa0-1f68-399 1fa1-1f69-399
    1fa2-1f6a-399 1fa3-1f6b-399 1fa4-1f6c-399 1fa5-1f6d-399 1fa6-1f6e-399 1fa7-1f6f-399
    1fa8-1f68-399 1fa9-1f69-399 1faa-1f6a-399 1fab-1f6b-399 1fac-1f6c-399 1fad-1f6d-399
    1fae-1f6e-399 1faf-1f6f-399 1fb2-1fba-399 1fb3-391-399 1fb4-386-399 1fb6-391-342
    1fb7-391-342-399 1fbc-391-399 1fc2-1fca-399 1fc3-397-399 1fc4-389-399 1fc6-397-342
    1fc7-397-342-399 1fcc-397-399 1fd2-399-308-300 1fd3-399-308-301 1fd6-399-342 1fd7-399-308-342
    1fe2-3a5-308-300 1fe3-3a5-308-301 1fe4-3a1-313 1fe6-3a5-342 1fe7-3a5-308-342 1ff2-1ffa-399
    1ff3-3a9-399 1ff4-38f-399 1ff6-3a9-342 1ff7-3a9-342-399 1ffc-3a9-399 fb00-46-46 fb01-46-49
    fb02-46-4c fb03-46-46-49 fb04-46-46-4c fb05-53-54 fb06-53-54 fb13-544-546 fb14-544-535
    fb15-544-53b fb16-54e-546 fb17-544-53d").map fun entry => (entry.headD 0, entry.tail)

/-- The distance that the run holding a code point gives it. -/
def runDistance? (runs : List (Nat × Nat × Nat × Nat)) (n : Nat) : Option Nat :=
  (runs.find? fun (low, high, step, _) => low ≤ n && n ≤ high && (n - low) % step == 0).map
    fun (_, _, _, distance) => distance

/-- The upper case of a character; a character without one is its own. -/
def upperCase (c : Char) : List Char :=
  let n := c.toNat
  match upperSeveral.lookup n with
  | some codes => codes.map Char.ofNat
  | none =>
    match runDistance? upperBelow n with
    | some distance => [Char.ofNat (n - distance)]
    | none => [Char.ofNat (n + (runDistance? upperAbove n).getD 0)]

/-- A text with its first character in upper case. -/
def capitalized (text : String) : String :=
  match text.toList with
  | [] => ""
  | c :: rest => String.ofList (upperCase c ++ rest)

end PullScript.Text
