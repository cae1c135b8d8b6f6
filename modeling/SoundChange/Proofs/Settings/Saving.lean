import SoundChange.Proofs.File.Writing
import SoundChange.Proofs.Settings.Document

/-!
# Settings that are saved

Settings that were loaded can be told by their categories: all letters are uppercase. Where they are
saved they are loaded again, and what is saved then are the same bytes.

* `exists_loadFrom_eq_ok_iff`: the settings that can be loaded.
* `loadFrom_of_save`, `exists_save_again`: loading and saving where settings were saved.
* `loadFrom_save`: both, for all settings that can be loaded.
-/

set_option autoImplicit false

namespace SoundChange.Settings

variable {s : Settings} {p : Path} {tree tree' : FileTree}

/-! ## Loading -/

theorem readText_eq_ok_iff {disk : Disk} {text : List Char} :
    disk.readText p = .ok text ↔ ∃ bytes, disk p = .ok bytes ∧ Bytes.text? bytes = some text := by
  rw [Disk.readText, bind_eq_ok_iff]
  refine exists_congr fun bytes => and_congr_right fun _ => ?_
  cases Bytes.text? bytes with
  | none => simp
  | some _ => simp

theorem loadFrom_eq_ok_iff {disk : Disk} :
    loadFrom disk p = .ok s ↔ ∃ text, disk.readText p = .ok text ∧ parseDocument text = .ok s := by
  simp only [loadFrom, bind_eq_ok_iff, mapError_eq_ok_iff]

theorem loadFrom_of_holds {disk : Disk} (hs : s.categories.Proper)
    (h : disk p = .ok (Bytes.encode s.toDocument)) : loadFrom disk p = .ok s := by
  refine loadFrom_eq_ok_iff.mpr ⟨s.toDocument, ?_, parseDocument_toDocument hs⟩
  exact readText_eq_ok_iff.mpr ⟨_, h, Bytes.text?_encode _⟩

theorem proper_of_loadFrom {disk : Disk} (h : loadFrom disk p = .ok s) : s.categories.Proper := by
  obtain ⟨text, -, hparse⟩ := loadFrom_eq_ok_iff.mp h
  exact proper_of_parseDocument hparse

/-- Any settings can be loaded from some file, if only their categories are proper. -/
theorem exists_loadFrom_eq_ok_iff (s : Settings) :
    (∃ disk p, loadFrom disk p = .ok s) ↔ s.categories.Proper := by
  constructor
  · rintro ⟨disk, p, h⟩
    exact proper_of_loadFrom h
  · intro hs
    exact ⟨fun _ => .ok (Bytes.encode s.toDocument), ⟨[]⟩, loadFrom_of_holds hs rfl⟩

/-! ## Saving -/

/-- The tree with the directory that a path is in. -/
def prepare (tree : FileTree) (p : Path) : Except SettingsFault FileTree :=
  match p.parent? with
  | some directory => (tree.createDirectories directory).mapError .noDirectory
  | none => pure tree

theorem save_eq (s : Settings) (tree : FileTree) (p : Path) :
    s.save tree p = prepare tree p >>= fun t =>
      (t.write p (Bytes.encode s.toDocument)).mapError .unwritable := by
  unfold save prepare
  cases p.parent? <;> rfl

/-- The directory that the path is in, if it is in one, is there. -/
def DirectoryStands (tree : FileTree) (p : Path) : Prop :=
  ∀ directory, p.parent? = some directory → directory.text = [] ∨ tree.LeadsToDirectory directory

theorem directoryStands_of_prepare (h : prepare tree p = .ok tree') : DirectoryStands tree' p := by
  intro directory hparent
  rw [prepare, hparent] at h
  exact FileTree.leadsToDirectory_of_createDirectories (mapError_eq_ok_iff.mp h)

theorem prepare_of_directoryStands (h : DirectoryStands tree p) : prepare tree p = .ok tree := by
  unfold prepare
  split
  case h_1 directory hparent =>
    rw [FileTree.createDirectories_of_leadsToDirectory (h directory hparent)]
    rfl
  case h_2 => rfl

theorem DirectoryStands.keep (h : DirectoryStands tree p) (hkeeps : tree.Keeps tree') :
    DirectoryStands tree' p :=
  fun directory hparent => (h directory hparent).imp_right hkeeps.leadsToDirectory

theorem save_eq_ok_iff : s.save tree p = .ok tree' ↔ ∃ t, prepare tree p = .ok t ∧
    t.write p (Bytes.encode s.toDocument) = .ok tree' := by
  simp only [save_eq, bind_eq_ok_iff, mapError_eq_ok_iff]

theorem disk_of_save (h : s.save tree p = .ok tree') :
    tree'.disk p = .ok (Bytes.encode s.toDocument) := by
  obtain ⟨t, -, hwrite⟩ := save_eq_ok_iff.mp h
  exact FileTree.disk_of_write_eq_ok hwrite

theorem loadFrom_of_save (hs : s.categories.Proper) (h : s.save tree p = .ok tree') :
    loadFrom tree'.disk p = .ok s :=
  loadFrom_of_holds hs (disk_of_save h)

/-- Where settings were saved they can be saved again. -/
theorem exists_save_again (h : s.save tree p = .ok tree') :
    ∃ tree'', s.save tree' p = .ok tree'' := by
  obtain ⟨t, hprepare, hwrite⟩ := save_eq_ok_iff.mp h
  obtain ⟨tree'', hagain⟩ := FileTree.exists_write_again hwrite (Bytes.encode s.toDocument)
  -- The directory stood when the file was written, and the file has taken nothing away.
  have hstands := (directoryStands_of_prepare hprepare).keep (FileTree.keeps_of_write_eq_ok hwrite)
  exact ⟨tree'', save_eq_ok_iff.mpr ⟨tree', prepare_of_directoryStands hstands, hagain⟩⟩

/-- Settings can be loaded from some file if their categories are proper, and not otherwise.
Wherever they are saved they are loaded again, and can be saved there once more. Each time they are
saved, and wherever that is, the same bytes are written. -/
theorem loadFrom_save :
    (∀ s, (∃ disk p, loadFrom disk p = .ok s) ↔ s.categories.Proper) ∧
    ∀ disk q s, loadFrom disk q = .ok s → ∀ tree p tree', s.save tree p = .ok tree' →
      ∃ s', loadFrom tree'.disk p = .ok s' ∧ s' = s ∧
        (∃ tree'', s'.save tree' p = .ok tree'') ∧
        ∀ tree₁ p₁ tree₂, s'.save tree₁ p₁ = .ok tree₂ → tree₂.disk p₁ = tree'.disk p := by
  refine ⟨exists_loadFrom_eq_ok_iff, fun disk q s hs tree p tree' h => ?_⟩
  refine ⟨s, loadFrom_of_save (proper_of_loadFrom hs) h, rfl, exists_save_again h, ?_⟩
  intro tree₁ p₁ tree₂ h'
  rw [disk_of_save h', disk_of_save h]

/-- Settings with a path that is empty and one that is not there. -/
def listed : Settings where
  categories := .ofList [('Ⓐ', [['"']])]
  categoriesPath := some ⟨[]⟩
  rules := "a/b\n".toList
  trace := true

/-- The same settings as an array of values. -/
def listedDocument : List Char :=
  "[\x7b\"Ⓐ\":[\"\\\"\"]\x7d,\"\",\"a/b\\n\",null,true]".toList

/-- Settings that were an array of values are saved, in a directory that is created for them, and
loaded again with the empty path still there and the other one still not. -/
theorem loadFrom_save_listed :
    ∃ tree', listed.categories.Proper ∧
      loadFrom (fun _ => .ok (Bytes.encode listedDocument)) ⟨"old".toList⟩ = .ok listed ∧
      listed.save .empty ⟨"new/c".toList⟩ = .ok tree' ∧
      loadFrom tree'.disk ⟨"new/c".toList⟩ = .ok listed ∧
      ∃ tree'', listed.save tree' ⟨"new/c".toList⟩ = .ok tree'' ∧
        tree''.disk ⟨"new/c".toList⟩ = tree'.disk ⟨"new/c".toList⟩ := by
  have hload : loadFrom (fun _ => .ok (Bytes.encode listedDocument)) ⟨"old".toList⟩ =
      .ok listed := by
    refine loadFrom_eq_ok_iff.mpr ⟨listedDocument, ?_, by decide +kernel⟩
    exact readText_eq_ok_iff.mpr ⟨_, rfl, Bytes.text?_encode _⟩
  obtain ⟨tree', hsave⟩ : ∃ tree', listed.save .empty ⟨"new/c".toList⟩ = .ok tree' := by
    have hparent : (⟨"new/c".toList⟩ : Path).parent? = some ⟨"new".toList⟩ := by decide
    have hprepare : prepare .empty ⟨"new/c".toList⟩ =
        .ok ⟨.directory [("new".toList, .directory [])], []⟩ := by
      simp only [prepare, hparent]
      rw [FileTree.createDirectories]
      rfl
    exact ⟨_, save_eq_ok_iff.mpr ⟨_, hprepare, rfl⟩⟩
  obtain ⟨hproper, hagain⟩ := loadFrom_save
  obtain ⟨_, hload', rfl, ⟨tree'', hsave'⟩, hbytes⟩ := hagain _ _ _ hload _ _ _ hsave
  exact ⟨tree', (hproper listed).mp ⟨_, _, hload⟩, hload, hsave, hload', tree'', hsave',
    hbytes _ _ _ hsave'⟩

end SoundChange.Settings
