import Mathlib.Tactic.SplitIfs
import SoundChange.File.Tree
import SoundChange.Proofs.Outcome

/-!
# Following paths in two trees

A path that leads to a place in one tree leads to the same place in another one that has all that
stands in the first, with directories as directories (`Keeps`). A tree is kept in this sense where a
node is put at a place at which no directory stood.

* `Node.exists_find_put`: what stands in a tree once a node has been put.
* `Keeps.enter`, `Keeps.follow`: a piece of a path, and a whole path.
* `disk_isDirectory_iff`: a directory is what a path leads to, not what it fails at.
-/

set_option autoImplicit false

namespace SoundChange

namespace Node

/-- Whether the node is a directory. -/
def isDirectory : Node → Bool
  | file _ => false
  | directory _ => true

theorem find_append (n : Node) (l l' : Location) :
    n.find (l ++ l') = (n.find l).bind fun m => m.find l' := by
  induction l generalizing n with
  | nil => rfl
  | cons name l ih =>
    rw [List.cons_append, find_cons, find_cons]
    cases n.entries.lookup name with
    | none => rfl
    | some child => exact ih child

theorem entries_of_isDirectory_eq_false {n : Node} (h : n.isDirectory = false) :
    n.entries = [] := by
  cases n with
  | file content => rfl
  | directory entries => cases h

/-- What stands below a node is still there, and directories are, once another node has been put
where no directory stood. -/
theorem exists_find_put {n new : Node} {l : Location}
    (h : ∀ old, n.find l = some old → old.isDirectory = false) {l' : Location} {m : Node}
    (hm : n.find l' = some m) :
    ∃ m', (n.put new l).find l' = some m' ∧ (m.isDirectory = true → m'.isDirectory = true) := by
  induction l generalizing n l' with
  | nil =>
    -- The node itself gives way. It is a file, so nothing stands below it.
    have hn := h n rfl
    cases l' with
    | nil =>
      cases hm
      exact ⟨new, rfl, fun hd => absurd hd (by simp [hn])⟩
    | cons name l' =>
      rw [find_cons, entries_of_isDirectory_eq_false hn] at hm
      cases hm
  | cons name l ih =>
    cases l' with
    | nil => exact ⟨_, rfl, fun _ => rfl⟩
    | cons other l' =>
      by_cases ho : other = name
      · subst ho
        rw [find_cons] at hm
        obtain ⟨child, hchild, hm⟩ := Option.bind_eq_some_iff.mp hm
        rw [find_put_cons, hchild]
        refine ih (fun old hold => h old ?_) hm
        rw [find_cons, hchild]
        exact hold
      · rw [find_put_cons_of_ne n new ho]
        exact ⟨m, hm, id⟩

end Node

namespace FileTree

variable {t t' : FileTree} {s s' : Spot} {p : Path}

/-! ## Spots -/

/-- The node of a spot stands at its location. -/
def Holds (t : FileTree) (s : Spot) : Prop :=
  t.find s.upward.reverse = some s.node

theorem spot_eq_ok_iff {upward : Location} :
    t.spot upward = .ok s ↔ s.upward = upward ∧ t.Holds s := by
  unfold spot
  constructor
  · intro h
    split at h
    · cases h
      exact ⟨rfl, ‹_›⟩
    · cases h
  · rintro ⟨rfl, h⟩
    rw [h]
    rfl

theorem Holds.find_cons (h : t.Holds s) (name : List Char) :
    t.find (name :: s.upward).reverse = s.node.entries.lookup name := by
  rw [List.reverse_cons, find, Node.find_append, show t.root.find _ = _ from h]
  simp [Node.find_cons]

theorem holds_start (h : t.start p = .ok s) : t.Holds s :=
  (spot_eq_ok_iff.mp h).2

/-- What a piece of a path does in a directory: an idle piece stays, two dots go up, and a name goes
down. -/
inductive Enters (t : FileTree) (s : Spot) : List Char → Spot → Prop where
  | stay {piece : List Char} (hidle : Path.isIdle piece = true) : Enters t s piece s
  | up {s' : Spot} (hup : t.spot s.upward.tail = .ok s') : Enters t s ['.', '.'] s'
  | down {piece : List Char} {child : Node} (hname : isNoName piece = false)
    (hcheck : checkName piece = .ok ()) (hchild : s.node.entries.lookup piece = some child) :
    Enters t s piece ⟨piece :: s.upward, child⟩

theorem enters_of_enter_eq_ok {piece : List Char} (h : t.enter s piece = .ok s') :
    s.node.isDirectory = true ∧ Enters t s piece s' := by
  obtain ⟨upward, node⟩ := s
  cases node with
  | file content => cases h
  | directory entries =>
    refine ⟨rfl, ?_⟩
    simp only [enter] at h
    split_ifs at h with hidle hdots
    · cases h
      exact .stay hidle
    · subst hdots
      exact .up h
    · have hname : isNoName piece = false := by simp [isNoName, hidle, hdots]
      obtain ⟨_, hcheck, h⟩ := bind_eq_ok_iff.mp h
      split at h
      · cases h
        exact .down hname hcheck ‹_›
      · cases h

theorem enter_eq_ok_of_enters {piece : List Char} (hs : s.node.isDirectory = true)
    (h : Enters t s piece s') : t.enter s piece = .ok s' := by
  obtain ⟨upward, node⟩ := s
  cases node with
  | file content => cases hs
  | directory entries =>
    cases h with
    | stay hidle =>
      simp only [enter]
      rw [if_pos hidle]
      rfl
    | up hup => exact hup
    | down hname hcheck hchild =>
      obtain ⟨hidle, hdots⟩ := Bool.or_eq_false_iff.mp hname
      simp only [enter]
      rw [hidle, if_neg nofun, if_neg (by simpa using hdots), hcheck]
      simp only [Node.entries_directory] at hchild
      rw [hchild]
      rfl

theorem enter_nil_eq_ok_iff : t.enter s [] = .ok s' ↔ s.node.isDirectory = true ∧ s' = s := by
  constructor
  · intro h
    obtain ⟨hdirectory, h⟩ := enters_of_enter_eq_ok h
    cases h with
    | stay _ => exact ⟨hdirectory, rfl⟩
    | down hname _ _ => cases hname
  · rintro ⟨hdirectory, rfl⟩
    exact enter_eq_ok_of_enters hdirectory (.stay rfl)

theorem foldlM_enter_replicate_nil (hs : s.node.isDirectory = true) (n : Nat) :
    (List.replicate n []).foldlM t.enter s = .ok s := by
  induction n with
  | zero => rfl
  | succ n ih =>
    rw [List.replicate_succ, List.foldlM_cons, enter_nil_eq_ok_iff.mpr ⟨hs, rfl⟩]
    exact ih

theorem Holds.enter {piece : List Char} (hs : t.Holds s) (h : t.enter s piece = .ok s') :
    t.Holds s' := by
  obtain ⟨-, h⟩ := enters_of_enter_eq_ok h
  cases h with
  | stay _ => exact hs
  | up hup => exact (spot_eq_ok_iff.mp hup).2
  | down _ _ hchild => exact (hs.find_cons _).trans hchild

/-! ## Trees that keep what stands in another one -/

/-- What stands in the first tree stands in the second one, directories as directories. -/
structure Keeps (t t' : FileTree) : Prop where
  here : t'.here = t.here
  find : ∀ l n, t.find l = some n →
    ∃ n', t'.find l = some n' ∧ (n.isDirectory = true → n'.isDirectory = true)

/-- Spots of two trees at the same location. -/
structure Meets (t t' : FileTree) (s r : Spot) : Prop where
  left : t.Holds s
  right : t'.Holds r
  upward : r.upward = s.upward

theorem Keeps.isDirectory {r : Spot} (h : Keeps t t') (hr : Meets t t' s r)
    (hs : s.node.isDirectory = true) : r.node.isDirectory = true := by
  obtain ⟨n, hn, hdirectory⟩ := h.find _ _ hr.left
  have hnode : t'.find r.upward.reverse = some r.node := hr.right
  rw [hr.upward, hn] at hnode
  cases hnode
  exact hdirectory hs

theorem Keeps.spot {upward : Location} (h : Keeps t t') (hs : t.spot upward = .ok s) :
    ∃ r, t'.spot upward = .ok r ∧ Meets t t' s r := by
  obtain ⟨rfl, hholds⟩ := spot_eq_ok_iff.mp hs
  obtain ⟨n, hn, -⟩ := h.find _ _ hholds
  exact ⟨⟨s.upward, n⟩, spot_eq_ok_iff.mpr ⟨rfl, hn⟩, hholds, hn, rfl⟩

theorem Keeps.start (h : Keeps t t') (hs : t.start p = .ok s) :
    ∃ r, t'.start p = .ok r ∧ Meets t t' s r := by
  unfold FileTree.start at hs ⊢
  rw [h.here]
  exact h.spot hs

theorem Keeps.enter {r : Spot} {piece : List Char} (h : Keeps t t') (hr : Meets t t' s r)
    (hs : t.enter s piece = .ok s') : ∃ r', t'.enter r piece = .ok r' ∧ Meets t t' s' r' := by
  have hs' := hr.left.enter hs
  obtain ⟨hdirectory, hs⟩ := enters_of_enter_eq_ok hs
  have hdirectory' := h.isDirectory hr hdirectory
  cases hs with
  | stay hidle => exact ⟨r, enter_eq_ok_of_enters hdirectory' (.stay hidle), hr⟩
  | up hup =>
    obtain ⟨r', hspot, hmeets⟩ := h.spot hup
    exact ⟨r', enter_eq_ok_of_enters hdirectory' (.up (hr.upward ▸ hspot)), hmeets⟩
  | down hname hcheck hchild =>
    -- The child of the same name, which may be another node.
    obtain ⟨n, hn, -⟩ := h.find _ _ hs'
    have hlookup : r.node.entries.lookup piece = some n := by
      rw [← hr.right.find_cons, hr.upward]
      exact hn
    exact ⟨⟨piece :: r.upward, n⟩,
      enter_eq_ok_of_enters hdirectory' (.down hname hcheck hlookup), hs',
      (hr.right.find_cons piece).trans hlookup, congrArg (piece :: ·) hr.upward⟩

/-- Pieces that lead somewhere still lead there. -/
theorem Keeps.foldlM_enter {r : Spot} {pieces : List (List Char)} (h : Keeps t t')
    (hr : Meets t t' s r) (hs : pieces.foldlM t.enter s = .ok s') :
    ∃ r', pieces.foldlM t'.enter r = .ok r' ∧ Meets t t' s' r' := by
  induction pieces generalizing s r with
  | nil =>
    cases hs
    exact ⟨r, rfl, hr⟩
  | cons piece pieces ih =>
    rw [List.foldlM_cons] at hs
    obtain ⟨s₁, hs₁, hs⟩ := bind_eq_ok_iff.mp hs
    obtain ⟨r₁, hr₁, hmeets⟩ := h.enter hr hs₁
    obtain ⟨r', hr', hmeets'⟩ := ih hmeets hs
    exact ⟨r', by rw [List.foldlM_cons, hr₁]; exact hr', hmeets'⟩

/-! ## Whole paths -/

/-- The pieces lead from where a path starts to the spot. -/
def Walks (t : FileTree) (p : Path) (pieces : List (List Char)) (s : Spot) : Prop :=
  ∃ s₀, t.start p = .ok s₀ ∧ pieces.foldlM t.enter s₀ = .ok s

theorem Walks.holds {pieces : List (List Char)} (h : t.Walks p pieces s) : t.Holds s := by
  obtain ⟨s₀, hs₀, hs⟩ := h
  exact foldlM_eq_ok_induction (fun _ _ _ => Holds.enter) (holds_start hs₀) hs

theorem Keeps.walks {pieces : List (List Char)} (h : Keeps t t') (hs : t.Walks p pieces s) :
    ∃ r, t'.Walks p pieces r ∧ Meets t t' s r := by
  obtain ⟨s₀, hs₀, hs⟩ := hs
  obtain ⟨r₀, hr₀, hmeets₀⟩ := h.start hs₀
  obtain ⟨r, hr, hmeets⟩ := h.foldlM_enter hmeets₀ hs
  exact ⟨r, ⟨r₀, hr₀, hr⟩, hmeets⟩

/-- The spot that a path leads to. -/
def follow (t : FileTree) (p : Path) : Except FileFault Spot := do
  checkPath p
  let s ← t.start p
  p.pieces.foldlM t.enter s

theorem disk_eq (t : FileTree) (p : Path) :
    t.disk p = t.follow p >>= fun s =>
      match s.node with
      | .file content => pure content
      | .directory _ => throw .isDirectory := by
  unfold disk follow
  cases checkPath p with
  | error _ => rfl
  | ok _ =>
    cases t.start p with
    | error _ => rfl
    | ok s => rfl

theorem follow_eq_ok_iff :
    t.follow p = .ok s ↔ checkPath p = .ok () ∧ t.Walks p p.pieces s := by
  rw [follow, bind_eq_ok_iff]
  simp only [bind_eq_ok_iff]
  constructor
  · rintro ⟨_, hcheck, h⟩
    exact ⟨hcheck, h⟩
  · rintro ⟨hcheck, h⟩
    exact ⟨(), hcheck, h⟩

theorem Keeps.follow (h : Keeps t t') (hs : t.follow p = .ok s) :
    ∃ r, t'.follow p = .ok r ∧ Meets t t' s r := by
  obtain ⟨hcheck, hs⟩ := follow_eq_ok_iff.mp hs
  obtain ⟨r, hr, hmeets⟩ := h.walks hs
  exact ⟨r, follow_eq_ok_iff.mpr ⟨hcheck, hr⟩, hmeets⟩

/-- The path leads to a directory. -/
def LeadsToDirectory (t : FileTree) (p : Path) : Prop :=
  ∃ s, t.follow p = .ok s ∧ s.node.isDirectory = true

theorem Keeps.leadsToDirectory (h : Keeps t t') (hp : t.LeadsToDirectory p) :
    t'.LeadsToDirectory p := by
  obtain ⟨s, hs, hdirectory⟩ := hp
  obtain ⟨r, hr, hmeets⟩ := h.follow hs
  exact ⟨r, hr, h.isDirectory hmeets hdirectory⟩

theorem spot_ne_isDirectory (upward : Location) : t.spot upward ≠ .error .isDirectory := by
  unfold spot
  split
  · nofun
  · nofun

theorem enter_ne_isDirectory (s : Spot) (piece : List Char) :
    t.enter s piece ≠ .error .isDirectory := by
  unfold enter checkName
  intro h
  split at h
  · cases h
  · split_ifs at h
    · cases h
    · exact spot_ne_isDirectory _ h
    · obtain ⟨_, -, h⟩ := (bind_eq_error_iff.mp h).resolve_left nofun
      split at h
      · cases h
      · cases h
    · cases h

/-- Following a path fails for other reasons than that it leads to a directory. -/
theorem follow_ne_isDirectory (p : Path) : t.follow p ≠ .error .isDirectory := by
  have hpieces (pieces : List (List Char)) (s : Spot) :
      pieces.foldlM t.enter s ≠ .error .isDirectory := by
    induction pieces generalizing s with
    | nil => nofun
    | cons piece pieces ih =>
      intro h
      rw [List.foldlM_cons] at h
      obtain h | ⟨s', -, h⟩ := bind_eq_error_iff.mp h
      · exact enter_ne_isDirectory s piece h
      · exact ih s' h
  intro h
  obtain h | ⟨_, -, h⟩ := bind_eq_error_iff.mp h
  · unfold checkPath at h
    split_ifs at h
    all_goals cases h
  · obtain h | ⟨s, -, h⟩ := bind_eq_error_iff.mp h
    · exact spot_ne_isDirectory _ h
    · exact hpieces _ s h

theorem disk_isDirectory_iff : t.disk.isDirectory p = true ↔ t.LeadsToDirectory p := by
  unfold Disk.isDirectory
  rw [disk_eq]
  constructor
  · intro h
    split at h
    case h_1 hdisk =>
      obtain hfollow | ⟨s, hs, hnode⟩ := bind_eq_error_iff.mp hdisk
      · exact absurd hfollow (follow_ne_isDirectory p)
      · refine ⟨s, hs, ?_⟩
        split at hnode
        case h_1 => cases hnode
        case h_2 hs' => rw [hs']; rfl
    case h_2 => cases h
  · rintro ⟨⟨upward, node⟩, hs, hdirectory⟩
    cases node with
    | file content => cases hdirectory
    | directory entries => rw [hs]; rfl

end FileTree

end SoundChange
