import SoundChange.Proofs.File.Tree

/-!
# Writing files and creating directories

A path that names no directory of a tree has a place where a file can be written or a directory be
made. The tree that comes of it keeps what stood in the old one, and the path leads to what was put
there. So a file that was written is read, a directory that was created is there, and doing either
again is no fault.

* `Vacant.exists_follow_putUnder`: a path leads to what was put there.
* `disk_of_write_eq_ok`, `exists_write_again`: files.
* `leadsToDirectory_of_createDirectories`, `createDirectories_of_leadsToDirectory`: directories.
-/

set_option autoImplicit false

namespace SoundChange

/-! ## The steps of a path -/

namespace Path

/-- The pieces of a path without the empty ones at its end. -/
def steps (p : Path) : List (List Char) :=
  (p.pieces.reverse.dropWhile List.isEmpty).reverse

theorem intercalate_concat_nil {pieces : List (List Char)} (h : pieces ≠ []) :
    List.intercalate ['/'] (pieces ++ [[]]) = List.intercalate ['/'] pieces ++ ['/'] := by
  induction pieces with
  | nil => exact absurd rfl h
  | cons piece pieces ih =>
    cases pieces with
    | nil => simp [List.intercalate_cons_cons]
    | cons piece' pieces =>
      have ih := ih (by simp)
      simp only [List.cons_append, List.intercalate_cons_cons, List.append_assoc] at ih ⊢
      rw [ih]

/-- The pieces of a path: the steps before the last one, the last one, and empty pieces if the path
ends in a slash. -/
theorem exists_pieces_eq {p : Path} (h : p.steps ≠ []) :
    ∃ n, p.pieces = p.steps.dropLast ++ p.steps.getLastD [] :: List.replicate n [] ∧
      (p.text.getLast? ≠ some '/' → n = 0) := by
  have hlast : p.steps.getLastD [] = p.steps.getLast h := by
    rw [List.getLastD_eq_getLast?, List.getLast?_eq_getLast_of_ne_nil h]
    rfl
  have hblanks : (p.pieces.reverse.takeWhile List.isEmpty).reverse =
      List.replicate (p.pieces.reverse.takeWhile List.isEmpty).length [] := by
    rw [List.eq_replicate_iff, List.length_reverse]
    refine ⟨rfl, fun piece hpiece => List.isEmpty_iff.mp ?_⟩
    exact List.all_eq_true.mp List.all_takeWhile piece (List.mem_reverse.mp hpiece)
  have hpieces : p.pieces =
      p.steps ++ (p.pieces.reverse.takeWhile List.isEmpty).reverse := by
    rw [steps, ← List.reverse_append, List.takeWhile_append_dropWhile, List.reverse_reverse]
  rw [hblanks, ← List.dropLast_concat_getLast h, List.append_assoc, List.singleton_append,
    ← hlast] at hpieces
  refine ⟨_, hpieces, fun hslash => ?_⟩
  generalize (p.pieces.reverse.takeWhile List.isEmpty).length = n at hpieces
  cases n with
  | zero => rfl
  | succ n =>
    -- An empty piece at the end stands for a slash at the end of the text.
    refine absurd ?_ hslash
    have htext : List.intercalate ['/'] p.pieces = p.text := List.intercalate_splitOn '/'
    rw [List.replicate_succ', ← List.cons_append, ← List.append_assoc] at hpieces
    rw [← htext, hpieces, intercalate_concat_nil (by simp), List.getLast?_concat]

end Path

namespace FileTree

variable {t t' : FileTree} {s : Spot} {p : Path} {name : List Char}

/-! ## Where a path puts a node -/

theorem slot_eq_ok_iff : t.slot p = .ok (s, name) ↔ checkPath p = .ok () ∧
    t.Walks p p.steps.dropLast s ∧ s.node.isDirectory = true ∧ name = p.steps.getLastD [] := by
  simp only [slot, bind_eq_ok_iff]
  constructor
  · rintro ⟨_, hcheck, s₀, hs₀, s₁, hs₁, s₂, hs₂, h⟩
    obtain ⟨hdirectory, rfl⟩ := enter_nil_eq_ok_iff.mp hs₂
    cases h
    exact ⟨hcheck, ⟨s₀, hs₀, hs₁⟩, hdirectory, rfl⟩
  · rintro ⟨hcheck, ⟨s₀, hs₀, hs⟩, hdirectory, rfl⟩
    exact ⟨(), hcheck, s₀, hs₀, s, hs, s, enter_nil_eq_ok_iff.mpr ⟨hdirectory, rfl⟩, rfl⟩

theorem holds_of_slot (h : t.slot p = .ok (s, name)) : t.Holds s := by
  obtain ⟨-, hs, -⟩ := slot_eq_ok_iff.mp h
  exact hs.holds

theorem Keeps.slot (h : Keeps t t') (hs : t.slot p = .ok (s, name)) :
    ∃ r, t'.slot p = .ok (r, name) ∧ Meets t t' s r := by
  obtain ⟨hcheck, hs, hdirectory, hname⟩ := slot_eq_ok_iff.mp hs
  obtain ⟨r, hr, hmeets⟩ := h.walks hs
  exact ⟨r, slot_eq_ok_iff.mpr ⟨hcheck, hr, h.isDirectory hmeets hdirectory, hname⟩, hmeets⟩

/-- Behind its slot a path goes on with its name, and with empty pieces if it ends in a slash. -/
theorem exists_follow_eq (h : t.slot p = .ok (s, name))
    (hname : isNoName name = false) :
    ∃ n, (t.follow p = do
        let r ← t.enter s name
        (List.replicate n []).foldlM t.enter r) ∧
      (p.text.getLast? ≠ some '/' → n = 0) := by
  obtain ⟨hcheck, ⟨s₀, hs₀, hs⟩, -, rfl⟩ := slot_eq_ok_iff.mp h
  have hsteps : p.steps ≠ [] := by
    intro hnil
    rw [hnil] at hname
    cases hname
  obtain ⟨n, hpieces, hn⟩ := Path.exists_pieces_eq hsteps
  refine ⟨n, ?_, hn⟩
  rw [follow, hcheck, hs₀, hpieces]
  show List.foldlM _ s₀ _ = _
  rw [List.foldlM_append, hs]
  show List.foldlM _ s _ = _
  rw [List.foldlM_cons]

/-! ## Putting a node where a path leads -/

/-- The path leads to a name of a directory under which no other directory stands. -/
structure Vacant (t : FileTree) (p : Path) (s : Spot) (name : List Char) : Prop where
  slot : t.slot p = .ok (s, name)
  isName : isNoName name = false
  check : checkName name = .ok ()
  free : ∀ old, s.node.entries.lookup name = some old → old.isDirectory = false

theorem Vacant.keeps (h : Vacant t p s name) (new : Node) : Keeps t (t.putUnder s name new) := by
  refine ⟨rfl, fun l n hn => Node.exists_find_put (fun old hold => h.free old ?_) hn⟩
  rw [← (holds_of_slot h.slot).find_cons]
  exact hold

/-- The node that was put is found under its name. -/
theorem Vacant.exists_slot_putUnder (h : Vacant t p s name) (new : Node) :
    ∃ r, (t.putUnder s name new).slot p = .ok (r, name) ∧
      r.node.entries.lookup name = some new := by
  obtain ⟨r, hr, hmeets⟩ := (h.keeps new).slot h.slot
  refine ⟨r, hr, ?_⟩
  rw [← hmeets.right.find_cons, hmeets.upward]
  exact Node.find_put _ _ _

/-- The path leads to the node that was put. -/
theorem Vacant.exists_follow_putUnder (h : Vacant t p s name) {new : Node}
    (hend : new.isDirectory = true ∨ p.text.getLast? ≠ some '/') :
    ∃ upward, (t.putUnder s name new).follow p = .ok ⟨upward, new⟩ := by
  obtain ⟨r, hr, hnew⟩ := h.exists_slot_putUnder new
  obtain ⟨-, -, hdirectory, -⟩ := slot_eq_ok_iff.mp hr
  obtain ⟨n, hfollow, hn⟩ := exists_follow_eq hr h.isName
  refine ⟨name :: r.upward, ?_⟩
  rw [hfollow, enter_eq_ok_of_enters hdirectory (.down h.isName h.check hnew)]
  -- Empty pieces behind the name are followed in a directory only.
  rcases hend with hnode | hslash
  · exact foldlM_enter_replicate_nil hnode n
  · rw [hn hslash]
    rfl

/-! ## Files -/

theorem write_eq_ok_iff {content : ByteArray} : t.write p content = .ok t' ↔
    p.text.getLast? ≠ some '/' ∧
      ∃ s name, Vacant t p s name ∧ t' = t.putUnder s name (.file content) := by
  rw [write, bind_eq_ok_iff]
  constructor
  · rintro ⟨⟨s, name⟩, hslot, h⟩
    simp only at h
    split at h
    case isTrue => cases h
    case isFalse hbad =>
      obtain ⟨hname, hslash⟩ := Bool.or_eq_false_iff.mp (Bool.eq_false_iff.mpr hbad)
      obtain ⟨_, hcheck, h⟩ := bind_eq_ok_iff.mp h
      split at h
      case h_1 => cases h
      case h_2 hfree =>
        cases h
        refine ⟨by simpa using hslash, s, name, ⟨hslot, hname, hcheck, fun old hold => ?_⟩, rfl⟩
        cases old with
        | file _ => rfl
        | directory entries => exact absurd hold (hfree entries)
  · rintro ⟨hslash, s, name, ⟨hslot, hname, hcheck, hfree⟩, rfl⟩
    refine ⟨(s, name), hslot, ?_⟩
    simp only [hname, hcheck, Bool.false_or, beq_iff_eq, hslash, if_false]
    refine bind_eq_ok_iff.mpr ⟨(), rfl, ?_⟩
    split
    case h_1 entries hold => exact absurd (hfree _ hold) nofun
    case h_2 => rfl

/-- A file that was written is read. -/
theorem disk_of_write_eq_ok {content : ByteArray} (h : t.write p content = .ok t') :
    t'.disk p = .ok content := by
  obtain ⟨hslash, s, name, hvacant, rfl⟩ := write_eq_ok_iff.mp h
  obtain ⟨upward, hfollow⟩ := hvacant.exists_follow_putUnder (.inr hslash)
  rw [disk_eq, hfollow]
  rfl

theorem keeps_of_write_eq_ok {content : ByteArray} (h : t.write p content = .ok t') :
    Keeps t t' := by
  obtain ⟨-, s, name, hvacant, rfl⟩ := write_eq_ok_iff.mp h
  exact hvacant.keeps _

/-- A file that was written can be written over. -/
theorem exists_write_again {content : ByteArray} (h : t.write p content = .ok t')
    (content' : ByteArray) : ∃ t'', t'.write p content' = .ok t'' := by
  obtain ⟨hslash, s, name, hvacant, rfl⟩ := write_eq_ok_iff.mp h
  obtain ⟨r, hr, hfile⟩ := hvacant.exists_slot_putUnder (.file content)
  refine ⟨_, write_eq_ok_iff.mpr ⟨hslash, r, name, ⟨hr, hvacant.isName, hvacant.check, ?_⟩, rfl⟩⟩
  intro old hold
  rw [hfile] at hold
  cases hold
  rfl

/-! ## Directories -/

theorem makeDirectory_eq_ok_iff : t.makeDirectory p = .ok t' ↔
    ∃ s name, Vacant t p s name ∧ s.node.entries.lookup name = none ∧
      t' = t.putUnder s name (.directory []) := by
  rw [makeDirectory, bind_eq_ok_iff]
  constructor
  · rintro ⟨⟨s, name⟩, hslot, h⟩
    simp only at h
    split at h
    case isTrue => cases h
    case isFalse hname =>
      obtain ⟨_, hcheck, h⟩ := bind_eq_ok_iff.mp h
      split at h
      case isTrue => cases h
      case isFalse hthere =>
        have hnone := Option.not_isSome_iff_eq_none.mp hthere
        cases h
        refine ⟨s, name, ⟨hslot, Bool.eq_false_iff.mpr hname, hcheck, fun old hold => ?_⟩, hnone,
          rfl⟩
        rw [hnone] at hold
        cases hold
  · rintro ⟨s, name, ⟨hslot, hname, hcheck, -⟩, hnone, rfl⟩
    refine ⟨(s, name), hslot, ?_⟩
    simp only [hname, hcheck, hnone]
    rfl

theorem leadsToDirectory_of_makeDirectory (h : t.makeDirectory p = .ok t') :
    t'.LeadsToDirectory p := by
  obtain ⟨s, name, hvacant, -, rfl⟩ := makeDirectory_eq_ok_iff.mp h
  have hnode : (Node.directory []).isDirectory = true := rfl
  obtain ⟨upward, hfollow⟩ := hvacant.exists_follow_putUnder (.inl hnode)
  exact ⟨_, hfollow, rfl⟩

/-- A directory that is there cannot be made. -/
theorem makeDirectory_ne_ok (h : t.LeadsToDirectory p) : t.makeDirectory p ≠ .ok t' := by
  intro hmake
  obtain ⟨s, name, hvacant, hnone, -⟩ := makeDirectory_eq_ok_iff.mp hmake
  obtain ⟨n, hfollow, -⟩ := exists_follow_eq hvacant.slot hvacant.isName
  obtain ⟨r, hr, -⟩ := h
  rw [hfollow] at hr
  obtain ⟨r₁, henter, -⟩ := bind_eq_ok_iff.mp hr
  obtain ⟨-, henters⟩ := enters_of_enter_eq_ok henter
  cases henters with
  | stay hidle => simpa [isNoName, hidle] using hvacant.isName
  | up _ => cases hvacant.isName
  | down _ _ hchild =>
    rw [hnone] at hchild
    cases hchild

theorem ensureDirectory_of_leadsToDirectory (h : t.LeadsToDirectory p) :
    t.ensureDirectory p = .ok t := by
  unfold ensureDirectory
  split
  · exact absurd ‹_› (makeDirectory_ne_ok h)
  · rw [if_pos (disk_isDirectory_iff.mpr h)]
    rfl

theorem leadsToDirectory_of_ensureDirectory (h : t.ensureDirectory p = .ok t') :
    t'.LeadsToDirectory p := by
  unfold ensureDirectory at h
  split at h
  · cases h
    exact leadsToDirectory_of_makeDirectory ‹_›
  · split at h
    case isTrue hthere =>
      cases h
      exact disk_isDirectory_iff.mp hthere
    case isFalse => cases h

/-- A directory that was created is there, unless the path is empty and names none. -/
theorem leadsToDirectory_of_createDirectories (h : t.createDirectories p = .ok t') :
    p.text = [] ∨ t'.LeadsToDirectory p := by
  unfold createDirectories at h
  split_ifs at h with hempty
  · exact .inl (List.isEmpty_iff.mp hempty)
  · refine .inr ?_
    split at h
    · split at h
      · obtain ⟨t₁, -, h⟩ := bind_eq_ok_iff.mp h
        exact leadsToDirectory_of_ensureDirectory h
      · cases h
    · exact leadsToDirectory_of_ensureDirectory h

/-- Nothing is created where a directory is there already. -/
theorem createDirectories_of_leadsToDirectory (h : p.text = [] ∨ t.LeadsToDirectory p) :
    t.createDirectories p = .ok t := by
  unfold createDirectories
  rcases h with hempty | h
  · rw [hempty]
    rfl
  · split_ifs
    · rfl
    · rw [ensureDirectory_of_leadsToDirectory h]

end FileTree

end SoundChange
