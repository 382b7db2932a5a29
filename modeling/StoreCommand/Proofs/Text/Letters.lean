import StoreCommand.Key

/-!
# Letters in lower case

Lowering the letters of a text changes capital letters only, and they stay letters.  So a text is
its own lowered text exactly if it has no capital letter (`lowered_eq_self_iff`), and the name of a
key is still one when its letters are lowered (`isKeyName_lowered`).
-/

namespace StoreCommand

/-! ### Code points -/

theorem isDigit_iff {c : Char} : c.isDigit = true ↔ 48 ≤ c.toNat ∧ c.toNat ≤ 57 :=
  Bool.and_eq_true_iff.trans (and_congr (decide_eq_true_iff.trans UInt32.le_iff_toNat_le)
    (decide_eq_true_iff.trans UInt32.le_iff_toNat_le))

theorem isUpper_iff {c : Char} : c.isUpper = true ↔ 65 ≤ c.toNat ∧ c.toNat ≤ 90 :=
  decide_eq_true_iff.trans (and_congr UInt32.le_iff_toNat_le UInt32.le_iff_toNat_le)

theorem isLower_iff {c : Char} : c.isLower = true ↔ 97 ≤ c.toNat ∧ c.toNat ≤ 122 :=
  Bool.and_eq_true_iff.trans (and_congr (decide_eq_true_iff.trans UInt32.le_iff_toNat_le)
    (decide_eq_true_iff.trans UInt32.le_iff_toNat_le))

theorem isAlpha_eq (c : Char) : c.isAlpha = (c.isUpper || c.isLower) := rfl

theorem toLower_of_not_isUpper {c : Char} (h : ¬ c.isUpper = true) : c.toLower = c :=
  dif_neg (mt decide_eq_true_iff.2 h)

theorem toNat_toLower {c : Char} (h : c.isUpper = true) : c.toLower.toNat = c.toNat + 32 := by
  have hbound := (isUpper_iff.1 h).2
  have hval : c.toLower.val = c.val + 32 := congrArg Char.val (dif_pos (decide_eq_true_iff.1 h))
  change c.toLower.val.toNat = c.val.toNat + 32
  rw [hval, UInt32.toNat_add]
  -- far below the end of 32 bits, so the sum does not wrap
  exact Nat.mod_eq_of_lt (by simp; omega)

theorem isUpper_toLower (c : Char) : c.toLower.isUpper = false := by
  apply Bool.eq_false_iff.2
  intro hupper
  by_cases h : c.isUpper = true
  · rw [isUpper_iff, toNat_toLower h] at hupper
    rw [isUpper_iff] at h
    omega
  · exact h (toLower_of_not_isUpper h ▸ hupper)

theorem isAlpha_toLower (c : Char) : c.toLower.isAlpha = c.isAlpha := by
  by_cases h : c.isUpper = true
  · have hlower : c.toLower.isLower = true := by
      rw [isLower_iff, toNat_toLower h]
      rw [isUpper_iff] at h
      omega
    simp [isAlpha_eq, h, hlower]
  · rw [toLower_of_not_isUpper h]

/-! ### Letters and digits -/

theorem isUpper_of_isDigit {c : Char} (h : c.isDigit = true) : c.isUpper = false := by
  apply Bool.eq_false_iff.2
  intro hupper
  rw [isDigit_iff] at h
  rw [isUpper_iff] at hupper
  omega

theorem isDigit_of_isAlpha {c : Char} (h : c.isAlpha = true) : c.isDigit = false := by
  apply Bool.eq_false_iff.2
  intro hdigit
  simp only [isAlpha_eq, isUpper_of_isDigit hdigit, Bool.false_or] at h
  rw [isLower_iff] at h
  rw [isDigit_iff] at hdigit
  omega

theorem isAlpha_of_isDigit {c : Char} (h : c.isDigit = true) : c.isAlpha = false := by
  apply Bool.eq_false_iff.2
  intro halpha
  exact absurd h (by simp [isDigit_of_isAlpha halpha])

theorem toLower_of_isDigit {c : Char} (h : c.isDigit = true) : c.toLower = c :=
  toLower_of_not_isUpper (by simp [isUpper_of_isDigit h])

theorem toLower_eq_self_iff {c : Char} : c.toLower = c ↔ c.isUpper = false := by
  constructor
  · intro h
    rw [← h]
    exact isUpper_toLower c
  · intro h
    exact toLower_of_not_isUpper (by simp [h])

theorem lowered_eq_self_iff {text : List Char} :
    lowered text = text ↔ ∀ c ∈ text, c.isUpper = false := by
  induction text with
  | nil => simp [lowered]
  | cons c tail ih =>
    have hcons : lowered (c :: tail) = c.toLower :: lowered tail := rfl
    rw [hcons, List.cons_eq_cons, toLower_eq_self_iff, ih, List.forall_mem_cons]

/-! ### Texts that are the same in lower case -/

/-- Two characters that are the same in lower case are the same, or both are letters. -/
theorem eq_or_isAlpha_of_toLower_eq {c d : Char} (h : c.toLower = d.toLower) :
    c = d ∨ (c.isAlpha = true ∧ d.isAlpha = true) := by
  have hsame : c.isAlpha = d.isAlpha := by
    rw [← isAlpha_toLower c, h, isAlpha_toLower]
  cases halpha : c.isAlpha with
  | true => exact Or.inr ⟨rfl, by rw [← hsame, halpha]⟩
  | false =>
    -- neither is a capital letter, so lowering has changed nothing
    have hnotUpper : ∀ e : Char, e.isAlpha = false → ¬ e.isUpper = true := by
      intro e he hupper
      exact absurd he (by simp [isAlpha_eq, hupper])
    rw [toLower_of_not_isUpper (hnotUpper c halpha),
      toLower_of_not_isUpper (hnotUpper d (by rw [← hsame, halpha]))] at h
    exact Or.inl h

theorem eq_of_toLower_eq {c d : Char} (h : c.toLower = d.toLower) (hc : c.isAlpha = false) :
    d = c := by
  rcases eq_or_isAlpha_of_toLower_eq h with rfl | ⟨halpha, -⟩
  · rfl
  · exact absurd halpha (by simp [hc])

theorem isWordChar_of_isAlpha {c : Char} (h : c.isAlpha = true) : isWordChar c = true := by
  simp [isWordChar, Char.isAlphanum, h]

theorem isAlpha_of_isWordChar {c : Char} (h : isWordChar c = true) (hdigit : c.isDigit = false)
    (hunderscore : c ≠ '_') : c.isAlpha = true := by
  simpa [isWordChar, Char.isAlphanum, hdigit, hunderscore] using h

theorem isWordChar_eq_of_toLower_eq {c d : Char} (h : c.toLower = d.toLower) :
    isWordChar d = isWordChar c := by
  rcases eq_or_isAlpha_of_toLower_eq h with rfl | ⟨hc, hd⟩
  · rfl
  · rw [isWordChar_of_isAlpha hc, isWordChar_of_isAlpha hd]

theorem isDigit_eq_of_toLower_eq {c d : Char} (h : c.toLower = d.toLower) :
    d.isDigit = c.isDigit := by
  rcases eq_or_isAlpha_of_toLower_eq h with rfl | ⟨hc, hd⟩
  · rfl
  · rw [isDigit_of_isAlpha hc, isDigit_of_isAlpha hd]

/-- Texts that are the same in lower case have the same characters, but for the case of letters. -/
theorem exists_mem_of_lowered_eq {text other : List Char} (h : lowered text = lowered other)
    {c : Char} (hc : c ∈ text) : ∃ d ∈ other, c.toLower = d.toLower := by
  have hmem : c.toLower ∈ lowered other := h ▸ List.mem_map_of_mem hc
  rcases List.mem_map.1 hmem with ⟨d, hd, hsame⟩
  exact ⟨d, hd, hsame.symm⟩

theorem eq_of_lowered_eq {text other : List Char} (h : lowered text = lowered other)
    (htext : ∀ c ∈ text, c.isAlpha = false) : other = text := by
  induction text generalizing other with
  | nil => exact List.map_eq_nil_iff.1 h.symm
  | cons c rest ih =>
    cases other with
    | nil => exact absurd h (by simp [lowered])
    | cons d others =>
      obtain ⟨hsame, hrest⟩ := List.cons.inj h
      rw [eq_of_toLower_eq hsame (htext c List.mem_cons_self),
        ih hrest fun e he => htext e (List.mem_cons_of_mem c he)]

theorem isWordChar_toLower {c : Char} (h : isWordChar c = true) : isWordChar c.toLower = true := by
  rw [isWordChar_eq_of_toLower_eq (toLower_eq_self_iff.2 (isUpper_toLower c)).symm, h]

/-- The name of a key in lower case is the name of a key. -/
theorem isKeyName_lowered {text : String} (h : isKeyName text = true) :
    isKeyName (String.ofList (lowered text.toList)) = true := by
  unfold isKeyName at *
  rw [String.toList_ofList]
  split at h
  · exact absurd h (by simp)
  · rename_i c rest htext
    simp only [Bool.and_eq_true, List.all_eq_true] at h
    have hlowered : lowered text.toList = c.toLower :: lowered rest := by
      rw [htext]
      rfl
    rw [hlowered]
    simp only [Bool.and_eq_true, List.all_eq_true, isAlpha_toLower]
    refine ⟨h.1, ?_⟩
    intro d hd
    rcases List.mem_map.1 hd with ⟨e, he, rfl⟩
    exact isWordChar_toLower (h.2 e he)

end StoreCommand
