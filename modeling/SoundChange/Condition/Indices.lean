import SoundChange.Condition
import SoundChange.Machine

/-!
# Alternatives on a machine

To try an alternative on a machine is to match symbols from some place of a word on. Whether there
is room for them is found out from indices beforehand, and not looked at again. Here everything is
done that a machine does with the indices, in the order in which it is done.

* `Checked.matchRun`: symbols from a place on.
* `Checked.matchesInWord`, `Checked.matchesAround`: an alternative about the whole word and one
  about a place.
-/

set_option autoImplicit false

namespace SoundChange.Checked

/-- Whether the symbols match the characters from `offset` on, which have to be there. -/
def matchRun (M : Machine) (table : CategoryTable) (ts : List Symbol) (w : Word) (offset : Nat) :
    Checked Bool := do
  let stop ← sum M offset ts.length
  let part ← slice w offset stop
  lift (matchSymbols table ts part)

/-- Whether an alternative holds of the whole word. -/
def matchesInWord (M : Machine) (table : CategoryTable) (w : Word) (alt : Alternative) :
    Checked Bool :=
  if alt.contains .locus then throw (.fault .locusInWordCondition)
  else if 1 < Pattern.edgeCount alt then throw (.fault .tooManyEdges)
  else if alt.head? = some .edge then
    if alt.tail.length ≤ w.length then matchRun M table alt.tail w 0 else pure false
  else if alt.getLast? = some .edge then
    if w.length < alt.dropLast.length then pure false
    else do
      let offset ← difference w.length alt.dropLast.length
      matchRun M table alt.dropLast w offset
  else if 0 < Pattern.edgeCount alt then throw (.fault .misplacedEdge)
  else if w.length < alt.length then pure false
  else do
    let last ← difference w.length alt.length
    (List.range (last + 1)).anyM fun offset => matchRun M table alt w offset

/-- The symbols in front of the locus without a word edge there. -/
def dropLeftEdge (before : List Symbol) : Checked (Bool × List Symbol) :=
  if before.head? = some .edge then do
    let left ← slice before 1 before.length
    pure (true, left)
  else pure (false, before)

/-- The symbols behind the locus without a word edge there. -/
def dropRightEdge (after : List Symbol) : Checked (Bool × List Symbol) :=
  if after.getLast? = some .edge then do
    let last ← difference after.length 1
    let right ← slice after 0 last
    pure (true, right)
  else pure (false, after)

/-- Whether something else than `right` is behind `stop` where that has to be all. -/
def missesEnd (atEnd : Bool) (w : Word) (stop : Nat) (right : List Symbol) : Checked Bool :=
  if atEnd then do
    let room ← difference w.length stop
    pure (decide (room ≠ right.length))
  else pure false

/-- Whether symbols match on both sides of the `len` characters from `start` on. -/
def matchesSides (M : Machine) (table : CategoryTable) (w : Word) (start len : Nat)
    (atStart : Bool) (left : List Symbol) (atEnd : Bool) (right : List Symbol) : Checked Bool := do
  let stop ← sum M start len
  if start < left.length then pure false
  else do
    let reach ← sum M stop right.length
    if w.length < reach then pure false
    else if atStart = true ∧ start ≠ left.length then pure false
    else if ← missesEnd atEnd w stop right then pure false
    else do
      let offset ← difference start left.length
      if ← matchRun M table left w offset then matchRun M table right w stop
      else pure false

/-- Whether an alternative holds around the `len` characters from `start` on. -/
def matchesAround (M : Machine) (table : CategoryTable) (w : Word) (start len : Nat)
    (alt : Alternative) : Checked Bool :=
  match alt.idxOf? .locus with
  | none => matchesInWord M table w alt
  | some place => do
    let last ← difference alt.length 1
    if alt.zipIdx.any fun q => q.1 == .edge && q.2 != 0 && q.2 != last then
      throw (.fault .misplacedEdge)
    else do
      let before ← slice alt 0 place
      let behind ← sum M place 1
      let after ← slice alt behind alt.length
      let (atStart, left) ← dropLeftEdge before
      let (atEnd, right) ← dropRightEdge after
      matchesSides M table w start len atStart left atEnd right

end SoundChange.Checked
