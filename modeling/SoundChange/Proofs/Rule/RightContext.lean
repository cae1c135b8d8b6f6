import SoundChange.Proofs.Rule.Scan
import SoundChange.Proofs.Rule.Validity

/-!
# Conditions about what follows

A rule about texts judges an occurrence in the word as it has become by then, a rule about a
category judges it in the word as it was. What has become of a word stands in front of the
occurrence, so that the two agree where all conditions look behind it.

* `replacementAt_of_looksRight`: what stands in front of a place does not count there.
* `scan_singleton`: the pass for one character, character by character.
* `apply_inline_singleton`: a rule about one character does what a rule does about the category
  that has no other member.
-/

set_option autoImplicit false

namespace SoundChange

/-! ## Conditions -/

theorem Alternative.matchesBeside_of_nothing_before (table : CategoryTable) (l t : Word) (len : Nat)
    (after : List Symbol) :
    matchesBeside table (l ++ t) l.length len [] after = matchesBeside table t 0 len [] after := by
  have hroom (n : Nat) : l.length + len + n ≤ l.length + t.length ↔ len + n ≤ t.length := by
    omega
  have hend : l.length + t.length - (l.length + len) = t.length - len := by
    omega
  have hdrop : (l ++ t).drop (l.length + len) = t.drop len := by
    rw [← List.drop_drop, List.drop_left]
  simp [matchesBeside, anchorLeft, matchSymbols, hroom, hend, hdrop]

theorem Alternative.matchesAround_of_locus_first {alt : Alternative} (h : alt.head? = some .locus)
    (table : CategoryTable) (l t : Word) (len : Nat) :
    matchesAround table (l ++ t) l.length len alt = matchesAround table t 0 len alt := by
  obtain ⟨after, rfl⟩ := List.head?_eq_some_iff.mp h
  rw [matchesAround_locus_cons, matchesAround_locus_cons, matchesBeside_of_nothing_before]

namespace Rule

/-- Every alternative of a condition begins with the locus; one that is absent or empty has none. -/
def LooksRight (r : Rule) : Prop :=
  ∀ alt ∈ Verdict.alternativesOf r.environment ++ Verdict.alternativesOf r.exception,
    alt.head? = some .locus

instance (r : Rule) : Decidable r.LooksRight :=
  inferInstanceAs (Decidable (∀ alt ∈ _, _))

section
variable {r : Rule}

theorem verdict_congr {holds holds' : Alternative → Except RuleFault Bool}
    (h : ∀ alt ∈ Verdict.alternativesOf r.environment ++ Verdict.alternativesOf r.exception,
      holds' alt = holds alt) : r.verdict holds' = r.verdict holds := by
  rw [List.forall_mem_append] at h
  exact compatible_eq.reach h.1 h.2

theorem replacementAt_of_looksRight (h : r.LooksRight) (table : CategoryTable) (len : Nat)
    (l t : Word) :
    r.replacementAt table len (l ++ t) l.length = r.replacementAt table len t 0 := by
  have hverdict : r.verdict (Alternative.matchesAround table (l ++ t) l.length len) =
      r.verdict (Alternative.matchesAround table t 0 len) := by
    refine verdict_congr fun alt halt => ?_
    exact Alternative.matchesAround_of_locus_first (h alt halt) table l t len
  rw [replacementAt, replacementAt, hverdict]

end

end Rule

/-! ## The pass for one character -/

namespace Word

section
variable {m : Type → Type} [Monad m] [LawfulMonad m] {choose : Word → Nat → m (Option Word)}

omit [LawfulMonad m] in
theorem scan_singleton_cons (c : Char) (done rest : Word) :
    scan [c] choose done (c :: rest) =
      choose (done ++ c :: rest) done.length >>= fun chosen =>
        scan [c] choose (done ++ chosen.getD [c]) rest := by
  have hp : [c] <+: c :: rest := List.prefix_append [c] rest
  rw [scan, if_pos hp]
  refine bind_congr fun chosen => ?_
  cases chosen with
  | none => rfl
  | some replacement => exact dif_neg (List.cons_ne_nil c [])

/-- Where a choice hangs on nothing in front, the pieces put out are those of the word as it was,
with `front` for what is done by then. -/
theorem scan_singleton (h : ∀ l t, choose (l ++ t) l.length = choose t 0) (c : Char)
    (done front rest : Word) :
    scan [c] choose done rest =
      (fun pieces => done ++ pieces.flatten) <$> (rest.zipIdx front.length).mapM fun (d, i) =>
        if d = c then (·.getD [d]) <$> choose (front ++ rest) i else pure [d] := by
  induction rest generalizing done front with
  | nil => simp [scan]
  | cons d rest ih =>
    have hlen : front.length + 1 = (front ++ [d]).length := by simp
    rw [List.zipIdx_cons, List.mapM_cons, hlen, List.append_cons front]
    dsimp only
    by_cases hd : d = c
    · subst hd
      rw [scan_singleton_cons, if_pos rfl, List.append_assoc front, List.singleton_append, h, h]
      simp [ih _ (front ++ [d])]
    · have hnot : ¬ [c] <+: d :: rest := by simp [Ne.symm hd]
      rw [scan, if_neg hnot, if_neg hd, ih _ (front ++ [d])]
      simp

end

end Word

/-! ## Rules -/

namespace Rule

/-- Where the changes are texts and the conditions look behind the target only, a character can be
written as a text or as a category that lists it, even twice. -/
theorem apply_inline_singleton (r : Rule) (c : Char) (hchange : Pattern.isText r.change = true)
    (helse : ∀ p ∈ r.elseChange, Pattern.isText p = true) (hright : r.LooksRight)
    (table : CategoryTable) (w : Word) :
    { r with target := [.literal c, .comma, .literal c] }.apply table w =
      { r with target := [.literal c] }.apply table w := by
  have hmembers : { r with target := [.literal c, .comma, .literal c] }.apply table w =
      r.applyToMembers table [[c], [c]] w := by
    rw [apply, Pattern.targetShape?_of_listsMembers rfl]
    rfl
  have hscan : { r with target := [.literal c] }.apply table w =
      Word.scan [c] (r.replacementAt table 1) [] w :=
    apply_of_target_eq (r := { r with target := [.literal c] }) rfl hchange helse table w
  rw [hmembers, applyToMembers_of_isText hchange helse, hscan,
    Word.scan_singleton (replacementAt_of_looksRight hright table 1) c [] []]
  simp

/-- The rule `a/bb/_n|_a#/_k/x`. -/
def unstressed : Rule where
  target := [.literal 'a']
  change := [.literal 'b', .literal 'b']
  environment := some [.locus, .literal 'n', .bar, .locus, .literal 'a', .edge]
  exception := some [.locus, .literal 'k']
  elseChange := some [.literal 'x']

/-- The replacements are of other lengths than what they replace, and what was the last but one
character of the word still is. -/
theorem apply_unstressed :
    { unstressed with target := [.literal 'a', .comma, .literal 'a'] }.apply .empty
        "akanaa".toList = .ok "xkbbnbba".toList ∧
      unstressed.apply .empty "akanaa".toList = .ok "xkbbnbba".toList := by
  have h := apply_inline_singleton unstressed 'a' rfl (by decide) (by decide) .empty
    "akanaa".toList
  exact ⟨rfl, h.symm.trans rfl⟩

end Rule

end SoundChange
