import Mathlib.Data.List.Nodup
import SoundChange.Proofs.CategoryTable.Definitions

/-!
# Plain texts that print a table

A table is printed with one category on a line: the letter, an equals sign and the members, which
are either pieces with commas between them or characters one after the other. There may be blanks
around all three, the lines may come in any order and end in either way, and the last one need not
be ended. What is read of such a text is the table.

* `InPieces`, `InCharacters`: the lists of members that can be printed in the one way and in the
  other; `Listing`: their text.
* `OnLine`, `Printed`: a category on a line, and categories on the lines of a text.
* `Listing.membersOf_eq`, `OnLine.defines`: one list and one line.
* `ofPlainText_of_printed`, `ofList_of_perm`: the lines of a text, in any order.
* `ofPlainText_printed`: tables that are printed and read.
-/

set_option autoImplicit false

namespace SoundChange

/-! ## Uppercase letters are not blank -/

namespace Text

/-- The code points of the blank characters. -/
def blankPoints : List Nat :=
  [9, 10, 11, 12, 13, 0x20, 0x85, 0xA0, 0x1680, 0x2000, 0x2001, 0x2002, 0x2003, 0x2004, 0x2005,
    0x2006, 0x2007, 0x2008, 0x2009, 0x200A, 0x2028, 0x2029, 0x202F, 0x205F, 0x3000]

theorem toNat_mem_blankPoints {c : Char} (h : isBlank c = true) : c.toNat ∈ blankPoints := by
  simp only [isBlank, Bool.or_eq_true, Bool.and_eq_true, decide_eq_true_eq, beq_iff_eq] at h
  simp only [blankPoints, List.mem_cons, List.not_mem_nil, or_false]
  omega

theorem isBlank_of_isUppercase {c : Char} (h : isUppercase c = true) : isBlank c = false := by
  have hpoints : ∀ n ∈ blankPoints, (uppercaseStrides.any fun s => s.contains n) = false := by
    decide +kernel
  refine Bool.eq_false_iff.mpr fun hb => ?_
  rw [isUppercase, hpoints c.toNat (toNat_mem_blankPoints hb)] at h
  cases h

end Text

namespace CategoryTable

/-! ## Lists of members -/

/-- There are at least two members, without commas and line feeds in them or blanks around them. -/
def InPieces (members : List Word) : Prop :=
  2 ≤ members.length ∧ ∀ m ∈ members, Text.trim m = m ∧ ',' ∉ m ∧ '\n' ∉ m

/-- Each member is one character, no comma and no line feed, and the first and the last one are not
blank. -/
def InCharacters (members : List Word) : Prop :=
  (∀ m ∈ members, m.length = 1 ∧ m ≠ [','] ∧ m ≠ ['\n']) ∧
    (∀ c, members.head? = some [c] → Text.isBlank c = false) ∧
    ∀ c, members.getLast? = some [c] → Text.isBlank c = false

/-- The text of a list of members, in one of the two ways. -/
inductive Listing (members : List Word) : List Char → Prop where
  | pieces (h : InPieces members) : Listing members ([','].intercalate members)
  | characters (h : InCharacters members) : Listing members members.flatten

/-- A category on a line, with blanks around its letter, the equals sign and its members. -/
inductive OnLine (c : Category) : List Char → Prop where
  | intro {front beforeSign behindSign back text : List Char}
      (hblank : ∀ ch ∈ front ++ beforeSign ++ behindSign ++ back,
        Text.isBlank ch = true ∧ ch ≠ '\n')
      (htext : Listing c.2 text) :
      OnLine c (front ++ c.1 :: (beforeSign ++ '=' :: (behindSign ++ text ++ back)))

/-- Categories on the lines of a text. A line ends with a line feed, and a carriage return may stand
in front of that; the last line may have no end. -/
inductive Printed : List Category → List Char → Prop where
  | nil : Printed [] []
  | last {c : Category} {line : List Char} (hline : OnLine c line) : Printed [c] line
  | feed {c : Category} {cs : List Category} {line rest : List Char} (hline : OnLine c line)
      (hrest : Printed cs rest) : Printed (c :: cs) (line ++ '\n' :: rest)
  | returnFeed {c : Category} {cs : List Category} {line rest : List Char}
      (hline : OnLine c line) (hrest : Printed cs rest) :
      Printed (c :: cs) (line ++ '\r' :: '\n' :: rest)

/-! ### Members with commas between them -/

theorem mem_intercalate_comma {members : List Word} {ch : Char}
    (h : ch ∈ [','].intercalate members) : ch = ',' ∨ ∃ m ∈ members, ch ∈ m := by
  induction members with
  | nil => simp at h
  | cons m members ih =>
    cases members with
    | nil => exact .inr ⟨m, .head _, by simpa using h⟩
    | cons m' members =>
      rw [List.intercalate_cons_cons] at h
      simp only [List.mem_append, List.mem_singleton] at h
      rcases h with (h | h) | h
      · exact .inr ⟨m, .head _, h⟩
      · exact .inl h
      · rcases ih h with h | ⟨m'', hm, h⟩
        · exact .inl h
        · exact .inr ⟨m'', .tail _ hm, h⟩

theorem isBlank_of_getLast?_intercalate {members : List Word}
    (h : ∀ m ∈ members, Text.trim m = m) {ch : Char}
    (hlast : ([','].intercalate members).getLast? = some ch) : Text.isBlank ch = false := by
  induction members with
  | nil => simp at hlast
  | cons m members ih =>
    rw [List.forall_mem_cons] at h
    cases members with
    | nil =>
      obtain ⟨-, -, -, -, hend⟩ := Text.trims_iff.mpr h.1
      exact hend ch (by simpa using hlast)
    | cons m' members =>
      rw [List.intercalate_cons_cons, List.append_assoc, List.getLast?_append,
        List.singleton_append, List.getLast?_cons] at hlast
      -- The last character is that of the other members, or the comma in front of them.
      cases hrest : ([','].intercalate (m' :: members)).getLast? with
      | none =>
        obtain rfl : ',' = ch := by simpa [hrest] using hlast
        decide
      | some d =>
        obtain rfl : d = ch := by simpa [hrest] using hlast
        exact ih h.2 hrest

theorem isBlank_of_head?_intercalate {m m' : Word} {members : List Word}
    (h : Text.trim m = m) {ch : Char}
    (hhead : ([','].intercalate (m :: m' :: members)).head? = some ch) :
    Text.isBlank ch = false := by
  obtain ⟨-, -, -, hstart, -⟩ := Text.trims_iff.mpr h
  rw [List.intercalate_cons_cons, List.append_assoc, List.head?_append] at hhead
  cases hm : m.head? with
  | none =>
    obtain rfl : ',' = ch := by simpa [hm] using hhead
    decide
  | some d =>
    obtain rfl : d = ch := by simpa [hm] using hhead
    exact hstart d hm

/-! ### Members that are characters -/

theorem map_singleton_flatten {members : List Word} (h : ∀ m ∈ members, m.length = 1) :
    (members.flatten.map fun ch => [ch]) = members := by
  induction members with
  | nil => rfl
  | cons m members ih =>
    rw [List.forall_mem_cons] at h
    obtain ⟨ch, rfl⟩ := List.length_eq_one_iff.mp h.1
    simpa using ih h.2

theorem InCharacters.exists_eq_map {members : List Word} (h : InCharacters members) :
    ∃ text : List Char, members = text.map (fun ch => [ch]) ∧ members.flatten = text ∧
      ',' ∉ text ∧ '\n' ∉ text ∧ Text.Trims text text := by
  obtain ⟨hchars, hfirst, hlast⟩ := h
  have hmap := map_singleton_flatten fun m hm => (hchars m hm).1
  have hnot : ∀ ch ∈ members.flatten, ch ≠ ',' ∧ ch ≠ '\n' := by
    intro ch hch
    have hm : [ch] ∈ members := by
      rw [← hmap]
      exact List.mem_map_of_mem hch
    exact ⟨fun he => (hchars _ hm).2.1 (by rw [he]), fun he => (hchars _ hm).2.2 (by rw [he])⟩
  refine ⟨members.flatten, hmap.symm, rfl, fun h => (hnot _ h).1 rfl, fun h => (hnot _ h).2 rfl,
    ?_⟩
  refine @Text.Trims.intro _ _ [] [] (by simp) nofun nofun (fun ch h => hfirst ch ?_) fun ch h =>
    hlast ch ?_
  · rw [← hmap, List.head?_map, h]
    rfl
  · rw [← hmap, List.getLast?_map, h]
    rfl

/-! ### Either way -/

theorem Listing.newline_not_mem {members : List Word} {text : List Char}
    (h : Listing members text) : '\n' ∉ text := by
  cases h with
  | pieces h =>
    intro hfeed
    rcases mem_intercalate_comma hfeed with hcomma | ⟨m, hm, hfeed⟩
    · cases hcomma
    · exact (h.2 m hm).2.2 hfeed
  | characters h =>
    obtain ⟨text, -, htext, -, hfeed, -⟩ := h.exists_eq_map
    rw [htext]
    exact hfeed

theorem Listing.trims {members : List Word} {text : List Char} (h : Listing members text) :
    Text.Trims text text := by
  cases h with
  | pieces h =>
    obtain ⟨hmany, hmembers⟩ := h
    match members, hmany with
    | m :: m' :: members, _ =>
      refine @Text.Trims.intro _ _ [] [] (by simp) nofun nofun (fun ch hch => ?_) fun ch hch => ?_
      · exact isBlank_of_head?_intercalate (hmembers m (.head _)).1 hch
      · exact isBlank_of_getLast?_intercalate (fun m hm => (hmembers m hm).1) hch
  | characters h =>
    obtain ⟨text, -, htext, -, -, htrims⟩ := h.exists_eq_map
    rw [htext]
    exact htrims

/-- What a text of members lists. -/
theorem Listing.membersOf_eq {members : List Word} {text : List Char} (h : Listing members text) :
    membersOf text = members := by
  cases h with
  | pieces h =>
    obtain ⟨hmany, hmembers⟩ := h
    match members, hmany with
    | m :: m' :: members, _ =>
      have hcomma : ',' ∈ [','].intercalate (m :: m' :: members) := by
        simp [List.intercalate_cons_cons]
      have htrim : ∀ m'' ∈ m :: m' :: members, Text.trim m'' = m'' := fun m'' hm =>
        (hmembers m'' hm).1
      rw [membersOf, if_pos (List.contains_iff_mem.mpr hcomma),
        List.splitOn_intercalate ',' (fun m'' hm => (hmembers m'' hm).2.1) (List.cons_ne_nil _ _),
        List.map_congr_left htrim, List.map_id']
  | characters h =>
    obtain ⟨text, hmap, htext, hcomma, -, -⟩ := h.exists_eq_map
    rw [htext, membersOf, if_neg (by simpa using hcomma), hmap]

/-! ## One line -/

section
variable {c : Category} {line : List Char}

theorem OnLine.newline_not_mem (hc : Text.isUppercase c.1 = true) (h : OnLine c line) :
    '\n' ∉ line := by
  obtain @⟨front, beforeSign, behindSign, back, text, hblank, htext⟩ := h
  have hletter : '\n' ≠ c.1 := by
    intro he
    have hblank := Text.isBlank_of_isUppercase hc
    rw [← he] at hblank
    cases hblank
  simp only [List.forall_mem_append] at hblank
  obtain ⟨⟨⟨hfront, hbefore⟩, hbehind⟩, hback⟩ := hblank
  simp only [List.mem_append, List.mem_cons, not_or]
  exact ⟨fun h => (hfront _ h).2 rfl, hletter, fun h => (hbefore _ h).2 rfl, by decide,
    ⟨fun h => (hbehind _ h).2 rfl, htext.newline_not_mem⟩, fun h => (hback _ h).2 rfl⟩

/-- A carriage return behind a line is one more blank. -/
theorem OnLine.append_return (h : OnLine c line) : OnLine c (line ++ ['\r']) := by
  obtain @⟨front, beforeSign, behindSign, back, text, hblank, htext⟩ := h
  have hreturn : ∀ ch ∈ front ++ beforeSign ++ behindSign ++ (back ++ ['\r']),
      Text.isBlank ch = true ∧ ch ≠ '\n' := by
    rw [← List.append_assoc]
    exact List.forall_mem_append.mpr ⟨hblank, by simp; decide⟩
  have hline := OnLine.intro hreturn htext
  simpa using hline

/-- The line of a category defines it. -/
theorem OnLine.defines (hc : Text.isUppercase c.1 = true) (h : OnLine c line) :
    Defines line c.1 c.2 := by
  obtain @⟨front, beforeSign, behindSign, back, text, hblank, htext⟩ := h
  simp only [List.forall_mem_append] at hblank
  obtain ⟨⟨⟨hfront, hbefore⟩, hbehind⟩, hback⟩ := hblank
  have hletter := Text.isBlank_of_isUppercase hc
  have hname : Text.Trims (c.1 :: beforeSign) [c.1] := by
    refine @Text.Trims.intro _ _ [] beforeSign rfl nofun (fun ch h => (hbefore ch h).1) ?_ ?_
    · simpa using hletter
    · simpa using hletter
  have hsign : '=' ∉ c.1 :: beforeSign := by
    intro hm
    rcases List.mem_cons.mp hm with he | hm
    · have hequals : Text.isUppercase '=' = false := by decide +kernel
      rw [← he, hequals] at hc
      cases hc
    · cases (hbefore _ hm).1
  obtain @⟨-, -, -, -, -, hfirst, hlast⟩ := htext.trims
  rw [← htext.membersOf_eq]
  -- Without members, all that stands behind the equals sign is blank.
  by_cases hempty : text = []
  · have hrest : ∀ ch ∈ behindSign ++ back, Text.isBlank ch = true :=
      List.forall_mem_append.mpr ⟨fun ch h => (hbehind ch h).1, fun ch h => (hback ch h).1⟩
    refine @Defines.intro _ _ (c.1 :: beforeSign) [] text ?_ hsign hname hc ?_
    · refine .intro (by simp [hempty]) (fun ch h => (hfront ch h).1) hrest ?_ ?_
      · simpa using hletter
      · simp [List.getLast?_cons]
        decide
    · rw [hempty]
      exact @Text.Trims.intro _ _ [] [] rfl nofun nofun nofun nofun
  · have hend : (c.1 :: beforeSign ++ '=' :: (behindSign ++ text)).getLast? = text.getLast? := by
      have hline : c.1 :: beforeSign ++ '=' :: (behindSign ++ text) =
          (c.1 :: beforeSign ++ '=' :: behindSign) ++ text := by simp
      rw [hline, List.getLast?_append_of_ne_nil _ hempty]
    refine @Defines.intro _ _ (c.1 :: beforeSign) (behindSign ++ text) text ?_ hsign hname hc ?_
    · refine .intro (by simp) (fun ch h => (hfront ch h).1) (fun ch h => (hback ch h).1) ?_ ?_
      · simpa using hletter
      · rw [hend]
        exact hlast
    · exact @Text.Trims.intro _ _ behindSign [] (by simp) (fun ch h => (hbehind ch h).1) nofun
        hfirst hlast

end

/-! ## All lines -/

theorem foldl_insert_merge (cs : List Category) (t u : CategoryTable) :
    cs.foldl (fun t c => t.insert c.1 c.2) (t.merge u) =
      t.merge (cs.foldl (fun t c => t.insert c.1 c.2) u) := by
  induction cs generalizing u with
  | nil => rfl
  | cons c cs ih => rw [List.foldl_cons, ← merge_insert, ih, List.foldl_cons]

theorem ofList_cons (c : Category) (cs : List Category) :
    ofList (c :: cs) = (empty.insert c.1 c.2).merge (ofList cs) :=
  foldl_insert_merge cs (empty.insert c.1 c.2) empty

theorem insert_comm {a b : Category} (h : a.1 = b.1 → a = b) (t : CategoryTable) :
    (t.insert a.1 a.2).insert b.1 b.2 = (t.insert b.1 b.2).insert a.1 a.2 := by
  refine ext_get? fun letter => ?_
  simp only [get?_insert]
  by_cases hb : letter = b.1
  · by_cases ha : letter = a.1
    · rw [h (ha.symm.trans hb)]
    · simp [hb, hb ▸ ha]
  · simp [hb]

/-- The categories of a table make it up in any order. -/
theorem ofList_of_perm {t : CategoryTable} {order : List Category}
    (h : order.Perm t.categories) : ofList order = t := by
  have hletters : ∀ a ∈ t.categories, ∀ b ∈ t.categories, a.1 = b.1 → a = b := by
    have hnodup : (t.categories.map Prod.fst).Nodup :=
      (List.pairwise_map.mpr t.ascending).imp fun h => Char.ne_of_lt h
    exact fun a ha b hb hab => List.inj_on_of_nodup_map hnodup ha hb hab
  have hcomm := h.symm.foldl_eq' (f := fun t c => t.insert c.1 c.2)
    (fun a ha b hb u => insert_comm (hletters a ha b hb) u) empty
  rw [ofList, ← hcomm]
  exact empty_merge t

theorem ofPlainText_of_defines {line : List Char} {letter : Char} {members : List Word}
    (h : Defines line letter members) (hfeed : '\n' ∉ line) :
    ofPlainText line = .ok (empty.insert letter members) := by
  rw [ofPlainText_eq, List.splitOn_eq_singleton hfeed, List.zipIdx_singleton, List.foldlM_cons,
    defineLine_eq, h.definition_eq]
  rfl

/-- What is read of the lines of categories is those categories, the last ones of a letter. -/
theorem ofPlainText_of_printed {cs : List Category} {text : List Char} (h : Printed cs text)
    (hcs : ∀ c ∈ cs, Text.isUppercase c.1 = true) : ofPlainText text = .ok (ofList cs) := by
  have hfeed : ∀ {c : Category} {cs : List Category} {line rest : List Char}, OnLine c line →
      Text.isUppercase c.1 = true → ofPlainText rest = .ok (ofList cs) →
      ofPlainText (line ++ '\n' :: rest) = .ok (ofList (c :: cs)) := by
    intro c cs line rest hline hc hrest
    rw [ofPlainText_append, ofPlainText_of_defines (hline.defines hc) (hline.newline_not_mem hc),
      hrest, ofList_cons]
    rfl
  induction h with
  | nil => rfl
  | @last c line hline =>
    have hc := hcs c (.head _)
    exact ofPlainText_of_defines (hline.defines hc) (hline.newline_not_mem hc)
  | feed hline _ ih =>
    rw [List.forall_mem_cons] at hcs
    exact hfeed hline hcs.1 (ih hcs.2)
  | @returnFeed c cs line rest hline _ ih =>
    rw [List.forall_mem_cons] at hcs
    have hreturn := hfeed hline.append_return hcs.1 (ih hcs.2)
    simpa using hreturn

/-! ## Tables -/

theorem OnLine.exists_of_listing {c : Category} (h : InPieces c.2 ∨ InCharacters c.2) :
    ∃ line, OnLine c line := by
  obtain ⟨text, htext⟩ : ∃ text, Listing c.2 text := by
    rcases h with h | h
    · exact ⟨_, .pieces h⟩
    · exact ⟨_, .characters h⟩
  exact ⟨_, @OnLine.intro c [] [] [] [] text nofun htext⟩

theorem Printed.exists_of_listings {cs : List Category}
    (h : ∀ c ∈ cs, InPieces c.2 ∨ InCharacters c.2) : ∃ text, Printed cs text := by
  induction cs with
  | nil => exact ⟨[], .nil⟩
  | cons c cs ih =>
    rw [List.forall_mem_cons] at h
    obtain ⟨line, hline⟩ := OnLine.exists_of_listing h.1
    obtain ⟨rest, hrest⟩ := ih h.2
    exact ⟨_, .feed hline hrest⟩

/-- A table of uppercase letters is what is read of the text that its categories are printed to, in
any order, with any blanks and with either line ends. They can be printed if the members of each are
pieces or characters. -/
theorem ofPlainText_printed :
    (∀ (t : CategoryTable) (order : List Category) (text : List Char), t.Proper →
      order.Perm t.categories → Printed order text → ofPlainText text = .ok t) ∧
    ∀ order : List Category, (∀ c ∈ order, InPieces c.2 ∨ InCharacters c.2) →
      ∃ text, Printed order text := by
  refine ⟨fun t order text ht horder htext => ?_, fun order h => Printed.exists_of_listings h⟩
  have hletters : ∀ c ∈ order, Text.isUppercase c.1 = true := fun c hc =>
    ht c.1 (List.mem_map_of_mem (horder.subset hc))
  rw [ofPlainText_of_printed htext hletters, ofList_of_perm horder]

/-- The table has an empty list, and members that are empty, have an equals sign or have blanks in
them; it is printed with different blanks and line ends. -/
theorem ofPlainText_printed_with_blanks_and_signs :
    ofPlainText "\u00a0T\t= = k\r\nB=\n A = ,a=b,c \rd\r".toList =
        .ok (ofList [('A', [[], "a=b".toList, "c \rd".toList]), ('B', []),
          ('T', [['='], [' '], ['k']])]) ∧
      ∃ text, Printed [('B', []), ('A', [[], "a=b".toList, "c \rd".toList])] text := by
  obtain ⟨hread, hprint⟩ := ofPlainText_printed
  have hpieces : InPieces [[], "a=b".toList, "c \rd".toList] := ⟨by decide, by decide⟩
  have hnone : InCharacters [] := ⟨nofun, nofun, nofun⟩
  have hsigns : InCharacters [['='], [' '], ['k']] :=
    ⟨by decide, by simp; decide, by simp; decide⟩
  have hT : OnLine ('T', [['='], [' '], ['k']]) "\u00a0T\t= = k".toList :=
    @OnLine.intro _ ['\u00a0'] ['\t'] [' '] [] _ (by simp; decide) (.characters hsigns)
  have hB : OnLine ('B', []) "B=".toList :=
    @OnLine.intro _ [] [] [] [] _ nofun (.characters hnone)
  have hA : OnLine ('A', [[], "a=b".toList, "c \rd".toList]) " A = ,a=b,c \rd\r".toList :=
    @OnLine.intro _ [' '] [' '] [' '] ['\r'] _ (by simp; decide) (.pieces hpieces)
  refine ⟨hread _ [('T', [['='], [' '], ['k']]), ('B', []),
    ('A', [[], "a=b".toList, "c \rd".toList])] _ (by decide +kernel) (by decide)
    (.returnFeed hT (.feed hB (.last hA))), hprint _ ?_⟩
  simp only [List.forall_mem_cons]
  exact ⟨.inr hnone, .inl hpieces, nofun⟩

end CategoryTable

end SoundChange
