import PullScript.Catalogue.Builtin

namespace PullScript.Catalogue

/-- Arithmetic and conversions between numbers and their texts. -/
def num : Module where
  name := "num"
  doc := "Arithmetic and conversions between numbers and their textual forms."
  builtins := [
    ⟨"abs", "Num -> Num", 1, "absolute value of a number", .calculate .abs⟩,
    ⟨"add", "Num -> Num -> Num", 2, "add two numbers", .calculate .add⟩,
    ⟨"sub", "Num -> Num -> Num", 2, "subtract the second number from the first", .calculate .sub⟩,
    ⟨"mul", "Num -> Num -> Num", 2, "multiply two numbers", .calculate .mul⟩,
    ⟨"div", "Num -> Num -> Num", 2, "divide the first number by the second", .calculate .div⟩,
    ⟨"tonum", "Str* -> Num", 1,
      "convert a string into a number; reads the leading decimal number, 0 if there is none",
      .calculate .leadingNumber⟩,
    ⟨"tostr", "Num -> Str", 1, "convert a number into a string", .render .decimal⟩,
    ⟨"bin", "Num -> Str", 1, "integer part of a number written in base 2", .render (.inBase 2)⟩,
    ⟨"oct", "Num -> Str", 1, "integer part of a number written in base 8", .render (.inBase 8)⟩,
    ⟨"hex", "Num -> Str", 1, "integer part of a number written in base 16", .render (.inBase 16)⟩,
    ⟨"unbin", "Str -> Num", 1, "read a number written in base 2", .calculate (.fromBase 2)⟩,
    ⟨"unoct", "Str -> Num", 1, "read a number written in base 8", .calculate (.fromBase 8)⟩,
    ⟨"unhex", "Str -> Num", 1, "read a number written in base 16", .calculate (.fromBase 16)⟩,
    ⟨"chr", "Num -> Str", 1, "the character at the given code point", .render .character⟩,
    ⟨"ord", "Str -> Num", 1, "code point of the first character, 0 for an empty string",
      .calculate .codePoint⟩]

/-- Texts as bytes, code points and graphemes; searching, affixing, splitting and joining. -/
def text : Module where
  name := "text"
  doc := "Strings as bytes, code points and graphemes; searching, affixing, splitting and joining."
  builtins := [
    ⟨"bytes", "Str* -> [Num]*", 1, "split a string into its bytes", .bytes⟩,
    ⟨"unbytes", "[Num]* -> Str*", 1, "make a string out of a list of bytes", .encode .byte⟩,
    ⟨"codepoints", "Str* -> [Num]*", 1, "split a string into its Unicode code points",
      .units .codePoint⟩,
    ⟨"uncodepoints", "[Num]* -> Str*", 1, "make a string out of a list of Unicode code points",
      .encode .codePoint⟩,
    ⟨"graphemes", "Str* -> [Str]*", 1, "split a string into its grapheme clusters",
      .units .grapheme⟩,
    ⟨"contains", "Str -> Str* -> Num", 2,
      "1 when the first string occurs in the second, 0 otherwise", .calculate .contains⟩,
    ⟨"startswith", "Str -> Str* -> Num", 2,
      "1 when the second string starts with the first, 0 otherwise", .calculate .startsWith⟩,
    ⟨"endswith", "Str -> Str* -> Num", 2,
      "1 when the second string ends with the first, 0 otherwise", .calculate .endsWith⟩,
    ⟨"prefix", "Str -> Str* -> Str*", 2, "put the first string in front of the second",
      .concat [0, 1]⟩,
    ⟨"suffix", "Str -> Str* -> Str*", 2, "put the first string after the second",
      .concat [1, 0]⟩,
    ⟨"surround", "Str -> Str -> Str* -> Str*", 3,
      "put the first string in front of the third and the second after it", .concat [0, 2, 1]⟩,
    ⟨"split", "Str -> Str* -> [Str*]*", 2,
      "break a string into the pieces found between occurrences of a separator; " ++
        "an empty separator gives an endless list of empty strings", .split⟩,
    ⟨"join", "Str -> [Str*]* -> Str*", 2,
      "make a string of the items of a list with a separator in between", .join⟩]

/-- Lazy list traversal, slicing and element access. -/
def list : Module where
  name := "list"
  doc := "Lazy list traversal, slicing and element access."
  builtins := [
    ⟨"map", "(a -> b) -> [a]* -> [b]*", 2,
      "make a new list by applying a function to each item of a list", .map⟩,
    ⟨"repeat", "a -> [a]*", 1, "an endless list of copies of the same value", .repeat⟩,
    ⟨"zipwith", "(a -> b -> c) -> [a]* -> [b]* -> [c]*", 3,
      "make a new list by applying a binary function to the items of two lists side by side; " ++
        "stops at the end of the shorter one", .zipWith⟩,
    ⟨"take", "Num -> [a]* -> [a]*", 2, "only the first items of a list, or fewer", .take⟩,
    ⟨"drop", "Num -> [a]* -> [a]*", 2, "every item of a list but the first ones", .drop⟩,
    ⟨"head", "[a] -> a", 1, "the first item of a list", .pick .head⟩,
    ⟨"last", "[a] -> a", 1, "the last item of a list", .pick .last⟩,
    ⟨"tail", "[a] -> [a]", 1, "every item of a list but the first", .tail⟩,
    ⟨"init", "[a] -> [a]", 1, "every item of a list but the last", .init⟩,
    ⟨"reverse", "[a] -> [a]", 1, "the items of a list in reverse order", .reverse⟩,
    ⟨"index", "[a] -> Num -> a", 2, "the item of a list at the given position", .pick .index⟩]

def func : Module where
  name := "func"
  doc := "Combinators over functions."
  builtins := [
    ⟨"const", "a -> b -> a", 1, "a function always giving back the same value", .const⟩,
    ⟨"id", "a -> a", 1, "the value itself", .give .itself 0⟩,
    ⟨"flip", "(a -> b -> c) -> b -> a -> c", 2,
      "a binary function with its two arguments swapped", .flip⟩]

/-- All modules, in the order in which their builtins are listed. -/
def standard : List Module :=
  [num, text, list, func]

end PullScript.Catalogue
