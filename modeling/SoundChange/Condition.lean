import SoundChange.CategoryTable
import SoundChange.Fault
import SoundChange.Pattern

/-!
# Matching an alternative of a condition

An alternative of a condition either speaks about the whole word or, with a locus, about what
stands on both sides of the target. Either way symbols have to match characters one by one from
some place on (`matchSymbols`), and that is tried only where the symbols fit into the word. A word
edge at the end of an alternative is no symbol that has to match: it is used up by the choice of
the place.

* `matchesInWord`: an alternative about the whole word.
* `matchesAround`: an alternative about the characters of a target, with or without a locus.
-/

set_option autoImplicit false

namespace SoundChange

/-- Whether a symbol stands for the character `c`. A word edge and a locus stand for no character
at all, and to ask for one is a fault. -/
def Symbol.matchesChar (table : CategoryTable) (c : Char) : Symbol → Except RuleFault Bool
  | literal d => pure (d == c)
  | category letter =>
    match table.get? letter with
    | some members => pure (members.contains [c])
    | none => throw (.unknownCategory letter)
  | edge => throw .misplacedEdge
  | locus => throw .locusInWordCondition
  | comma | bar => pure false

/-- Whether the symbols match the first characters of `w`. The first symbol that does not match
decides, and a symbol is looked at only if all before it match. -/
def matchSymbols (table : CategoryTable) : List Symbol → Word → Except RuleFault Bool
  | [], _ => pure true
  | _ :: _, [] => pure false
  | t :: ts, c :: w => do
    if ← t.matchesChar table c then matchSymbols table ts w else pure false

/-- Whether the symbols match at one of the first `count` places of `w`, tried from the left. -/
def matchAnyOf (table : CategoryTable) (symbols : List Symbol) :
    Nat → Word → Except RuleFault Bool
  | 0, _ => pure false
  | count + 1, w => do
    if ← matchSymbols table symbols w then pure true else matchAnyOf table symbols count w.tail

namespace Alternative

/-- Whether an alternative holds of the whole word: at its start behind a leading word edge, at its
end before a trailing one, anywhere without one. -/
def matchesInWord (table : CategoryTable) (w : Word) (alt : Alternative) :
    Except RuleFault Bool :=
  if alt.contains .locus then throw .locusInWordCondition
  else if 1 < Pattern.edgeCount alt then throw .tooManyEdges
  else if alt.head? = some .edge then
    if alt.tail.length ≤ w.length then matchSymbols table alt.tail w else pure false
  else if alt.getLast? = some .edge then
    if alt.dropLast.length ≤ w.length then
      matchSymbols table alt.dropLast (w.drop (w.length - alt.dropLast.length))
    else pure false
  else if alt.contains .edge then throw .misplacedEdge
  else matchAnyOf table alt (w.length + 1 - alt.length) w

/-- Whether the symbols in front of the locus begin with a word edge, and the others of them. -/
def anchorLeft (before : List Symbol) : Bool × List Symbol :=
  if before.head? = some .edge then (true, before.tail) else (false, before)

/-- Whether the symbols behind the locus end with a word edge, and the others of them. -/
def anchorRight (after : List Symbol) : Bool × List Symbol :=
  if after.getLast? = some .edge then (true, after.dropLast) else (false, after)

/-- Whether `before` and `after` match on both sides of the `len` characters from `start` on. They
do not if there is no room for them or they miss the edge they name. -/
def matchesBeside (table : CategoryTable) (w : Word) (start len : Nat)
    (before after : List Symbol) : Except RuleFault Bool :=
  let (atStart, left) := anchorLeft before
  let (atEnd, right) := anchorRight after
  let stop := start + len
  if left.length ≤ start ∧ stop + right.length ≤ w.length ∧ (atStart → start = left.length) ∧
      (atEnd → w.length - stop = right.length) then do
    if ← matchSymbols table left (w.drop (start - left.length)) then
      matchSymbols table right (w.drop stop)
    else pure false
  else pure false

/-- Whether an alternative holds around the `len` characters from `start` on. Without a locus it
speaks about the whole word. -/
def matchesAround (table : CategoryTable) (w : Word) (start len : Nat) (alt : Alternative) :
    Except RuleFault Bool :=
  match alt.dropWhile (· != .locus) with
  | [] => matchesInWord table w alt
  | _ :: after =>
    if alt.tail.dropLast.contains .edge then throw .misplacedEdge
    else matchesBeside table w start len (alt.takeWhile (· != .locus)) after

end Alternative

end SoundChange
