import SoundChange.Json.Reader
import SoundChange.Proofs.Json.Writing

/-!
# Reading what was written

The readers of lists of strings, on the lexemes of a value of the form that they read: they find
what the value holds, and leave what comes behind it.

* `strings?_toLexemes`: arrays of strings.
* `stringLists?_toLexemes`: objects of such arrays.
-/

set_option autoImplicit false

namespace SoundChange.Json

/-! ## Arrays of strings -/

/-- An array of strings. -/
def ofStrings (ss : List (List Char)) : Json :=
  .arr (ss.map .str)

theorem itemLexemes_ofStrings_cons_cons (s s' : List Char) (ss : List (List Char)) :
    itemLexemes ((s :: s' :: ss).map .str) =
      .str (some s) :: .comma :: itemLexemes ((s' :: ss).map .str) := rfl

theorem moreStrings?_itemLexemes (s : List Char) (ss : List (List Char)) (rest : List Lexeme) :
    moreStrings? (itemLexemes ((s :: ss).map .str) ++ .closeArray :: rest) =
      some (s :: ss, rest) := by
  induction ss generalizing s with
  | nil => rfl
  | cons s' ss ih =>
    rw [itemLexemes_ofStrings_cons_cons, List.cons_append, List.cons_append, moreStrings?, ih]
    rfl

/-- An array of strings is read, whatever comes behind it. -/
theorem strings?_toLexemes (ss : List (List Char)) (rest : List Lexeme) :
    strings? (toLexemes (ofStrings ss) ++ rest) = some (ss, rest) := by
  cases ss with
  | nil => rfl
  | cons s ss =>
    rw [ofStrings, toLexemes, List.cons_append, List.append_assoc, List.singleton_append]
    exact moreStrings?_itemLexemes s ss rest

theorem itemNumbers_map_str (ss : List (List Char)) : itemNumbers (ss.map .str) = [] := by
  induction ss with
  | nil => rfl
  | cons s ss ih => exact ih

/-! ## Objects of arrays of strings -/

/-- The members of an object of arrays of strings. -/
def stringListMembers (members : List (List Char × List (List Char))) :
    List (List Char × Json) :=
  members.map fun member => (member.1, ofStrings member.2)

/-- An object of arrays of strings. -/
def ofStringLists (members : List (List Char × List (List Char))) : Json :=
  .obj (stringListMembers members)

theorem memberLexemes_ofStringLists_cons (member : List Char × List (List Char))
    (members : List (List Char × List (List Char))) (rest : List Lexeme) :
    memberLexemes (stringListMembers (member :: members)) ++ rest =
      .str (some member.1) :: .colon :: (toLexemes (ofStrings member.2) ++
        (moreMemberLexemes (stringListMembers members) ++ rest)) := by
  simp [stringListMembers, memberLexemes]

theorem moreStringLists?_memberLexemes (member : List Char × List (List Char))
    (members : List (List Char × List (List Char))) (rest : List Lexeme) :
    moreStringLists? (memberLexemes (stringListMembers (member :: members)) ++
      .closeObject :: rest) = some (member :: members, rest) := by
  induction members generalizing member with
  | nil =>
    rw [memberLexemes_ofStringLists_cons, moreStringLists?, strings?_toLexemes]
    rfl
  | cons member' members ih =>
    have hmore : moreMemberLexemes (stringListMembers (member' :: members)) =
        .comma :: memberLexemes (stringListMembers (member' :: members)) := rfl
    rw [memberLexemes_ofStringLists_cons, hmore, moreStringLists?, strings?_toLexemes]
    simp only [List.cons_append, ih]
    rfl

/-- An object of arrays of strings is read, whatever comes behind it. -/
theorem stringLists?_toLexemes (members : List (List Char × List (List Char)))
    (rest : List Lexeme) :
    stringLists? (toLexemes (ofStringLists members) ++ rest) = some (members, rest) := by
  cases members with
  | nil => rfl
  | cons member members =>
    rw [ofStringLists, toLexemes, List.cons_append, List.append_assoc, List.singleton_append]
    exact moreStringLists?_memberLexemes member members rest

theorem numbers_ofStringLists (members : List (List Char × List (List Char))) :
    numbers (ofStringLists members) = [] := by
  have hmembers : memberNumbers (stringListMembers members) = [] := by
    induction members with
    | nil => rfl
    | cons member members ih =>
      simp only [stringListMembers, List.map_cons, memberNumbers, ofStrings, numbers,
        itemNumbers_map_str, List.nil_append]
      exact ih
  exact hmembers

end SoundChange.Json
