import Systrix.Lib.BitString

/-!
# Canonical prefix codes

A list of code lengths determines a code: words of one length are consecutive
numbers in symbol order, and each length starts where the shorter words end.
Length zero means that the symbol has no word.
-/

namespace CanonicalCode

open BitString

variable {lengths : List Nat} {maxLen sym sym' len len' : Nat} {word word' : Bits}

/-- Number of words of a length. -/
def wordCount (lengths : List Nat) (len : Nat) : Nat := if len = 0 then 0 else lengths.count len

/-- Value of the first word of a length. -/
def firstWord (lengths : List Nat) : (len : Nat) → Nat
  | 0 => 0
  | len + 1 => 2 * (firstWord lengths len + wordCount lengths len)

/-- Number of words shorter than a length. -/
def shorter (lengths : List Nat) : (len : Nat) → Nat
  | 0 => 0
  | len + 1 => shorter lengths len + wordCount lengths len

/-- Number of earlier symbols with the same length. -/
def rank (lengths : List Nat) (sym len : Nat) : Nat := (lengths.take sym).count len

/-- `word` is the code word of `sym`. -/
def Codeword (lengths : List Nat) (sym : Nat) (word : Bits) : Prop :=
  ∃ len, 0 < len ∧ lengths[sym]? = some len ∧
    word = msbBits len (firstWord lengths len + rank lengths sym len)

/-- Kraft's inequality for lengths of at most `maxLen`: what makes a prefix code
of these lengths possible. -/
def Kraft (maxLen : Nat) (lengths : List Nat) : Prop :=
  (lengths.map fun len => if len = 0 then 0 else 2 ^ (maxLen - len)).sum ≤ 2 ^ maxLen

instance (maxLen : Nat) (lengths : List Nat) : Decidable (Kraft maxLen lengths) :=
  inferInstanceAs (Decidable (_ ≤ _))

/-- The words of every length fit below the longer ones. -/
def Fits (maxLen : Nat) (lengths : List Nat) : Prop :=
  ∀ len ≤ maxLen, firstWord lengths len + wordCount lengths len ≤ 2 ^ len

/-! ## Ranks -/

theorem wordCount_of_pos (positive : 0 < len) : wordCount lengths len = lengths.count len :=
  if_neg (Nat.ne_of_gt positive)

theorem rank_succ (len : Nat) (inside : sym < lengths.length) :
    rank lengths (sym + 1) len = rank lengths sym len + if lengths[sym] = len then 1 else 0 := by
  rw [rank, rank, List.take_succ_eq_append_getElem inside, List.count_append,
    List.count_singleton]
  simp only [beq_iff_eq]

theorem rank_mono (ordered : sym ≤ sym') : rank lengths sym len ≤ rank lengths sym' len :=
  (List.take_sublist_take_left ordered).count_le len

theorem rank_lt_of_lt (ordered : sym < sym') (coded : lengths[sym]? = some len) :
    rank lengths sym len < rank lengths sym' len := by
  obtain ⟨inside, value⟩ := List.getElem?_eq_some_iff.mp coded
  have next := rank_succ len inside
  rw [if_pos value] at next
  have later : rank lengths (sym + 1) len ≤ rank lengths sym' len := rank_mono ordered
  omega

theorem rank_lt (coded : lengths[sym]? = some len) : rank lengths sym len < lengths.count len := by
  obtain ⟨inside, -⟩ := List.getElem?_eq_some_iff.mp coded
  have below := rank_lt_of_lt inside coded
  rwa [rank, rank, List.take_length] at below

theorem rank_injective (coded : lengths[sym]? = some len) (coded' : lengths[sym']? = some len)
    (same : rank lengths sym len = rank lengths sym' len) : sym = sym' := by
  rcases Nat.lt_trichotomy sym sym' with before | equal | after
  · exact absurd same (Nat.ne_of_lt (rank_lt_of_lt before coded))
  · exact equal
  · exact absurd same.symm (Nat.ne_of_lt (rank_lt_of_lt after coded'))

/-- Every rank below the number of words belongs to a symbol. -/
theorem exists_rank {position : Nat} (below : position < lengths.count len) :
    ∃ sym, lengths[sym]? = some len ∧ rank lengths sym len = position := by
  have walk : ∀ bound ≤ lengths.length, position < rank lengths bound len →
      ∃ sym, lengths[sym]? = some len ∧ rank lengths sym len = position := by
    intro bound
    induction bound with
    | zero => simp [rank]
    | succ sym ih =>
        intro inside reached
        have next := rank_succ len inside
        by_cases earlier : position < rank lengths sym len
        · exact ih (Nat.le_of_succ_le inside) earlier
        · by_cases here : lengths[sym] = len
          · rw [if_pos here] at next
            refine ⟨sym, ?_, by omega⟩
            rw [List.getElem?_eq_getElem inside, here]
          · rw [if_neg here] at next
            omega
  refine walk lengths.length (Nat.le_refl _) ?_
  rwa [rank, List.take_length]

/-! ## Code words -/

/-- A word is a number between the first of its length and the first after. -/
theorem codeword_iff (fits : Fits maxLen lengths) (short : ∀ len ∈ lengths, len ≤ maxLen) :
    Codeword lengths sym word ↔ 0 < word.length ∧ lengths[sym]? = some word.length ∧
      msbValue word = firstWord lengths word.length + rank lengths sym word.length := by
  constructor
  · rintro ⟨len, positive, coded, rfl⟩
    have bound := fits len (short len (List.mem_of_getElem? coded))
    rw [wordCount_of_pos positive] at bound
    have below := rank_lt coded
    rw [length_msbBits]
    exact ⟨positive, coded, msbValue_msbBits (by omega)⟩
  · rintro ⟨positive, coded, value⟩
    refine ⟨word.length, positive, coded, ?_⟩
    rw [← value, msbBits_msbValue]

/-- Codes of one length number their symbols. -/
theorem codeword_replicate {count : Nat} :
    Codeword (List.replicate count len) sym word ↔
      sym < count ∧ 0 < len ∧ word = msbBits len sym := by
  have unused : ∀ shorter ≤ len, firstWord (List.replicate count len) shorter = 0 := by
    intro shorter
    induction shorter with
    | zero => exact fun _ => rfl
    | succ shorter ih =>
        intro below
        have other : ¬len = shorter := by omega
        rw [firstWord, ih (by omega), wordCount, List.count_replicate]
        simp [other]
  have ranked : sym < count → rank (List.replicate count len) sym len = sym := by
    intro inside
    rw [rank, List.take_replicate, List.count_replicate_self, Nat.min_eq_left (Nat.le_of_lt inside)]
  constructor
  · rintro ⟨other, positive, coded, rfl⟩
    obtain ⟨inside, same⟩ := List.getElem?_eq_some_iff.mp coded
    rw [List.getElem_replicate] at same
    rw [List.length_replicate] at inside
    subst same
    rw [unused len (Nat.le_refl _), ranked inside, Nat.zero_add]
    exact ⟨inside, positive, rfl⟩
  · rintro ⟨inside, positive, rfl⟩
    refine ⟨len, positive, ?_, ?_⟩
    · rw [List.getElem?_replicate, if_pos inside]
    · rw [unused len (Nat.le_refl _), ranked inside, Nat.zero_add]

/-- A later length starts above every extension of an earlier word. -/
theorem firstWord_above (lengths : List Nat) (len extra : Nat) (positive : 0 < extra) :
    (firstWord lengths len + wordCount lengths len) * 2 ^ extra ≤ firstWord lengths (len + extra) := by
  induction extra with
  | zero => omega
  | succ extra ih =>
      rw [← Nat.add_assoc, firstWord, Nat.pow_succ, ← Nat.mul_assoc, Nat.mul_comm _ 2]
      refine Nat.mul_le_mul_left 2 ?_
      by_cases last : extra = 0
      · simp [last]
      · exact Nat.le_trans (ih (Nat.pos_of_ne_zero last)) (Nat.le_add_right _ _)

/-- No code word is a prefix of another. -/
theorem Codeword.eq_of_isPrefix (fits : Fits maxLen lengths)
    (short : ∀ len ∈ lengths, len ≤ maxLen) (left : Codeword lengths sym word)
    (right : Codeword lengths sym' word') (start : word <+: word') : sym = sym' ∧ word = word' := by
  obtain ⟨positive, coded, value⟩ := (codeword_iff fits short).mp left
  obtain ⟨-, coded', value'⟩ := (codeword_iff fits short).mp right
  obtain ⟨tail, rfl⟩ := start
  have below := rank_lt coded
  by_cases atEnd : tail = []
  · subst atEnd
    rw [List.append_nil] at coded' value' ⊢
    exact ⟨rank_injective coded coded' (by omega), rfl⟩
  · have above := firstWord_above lengths word.length tail.length
      (List.length_pos_iff.mpr atEnd)
    have low := msbValue_lt tail
    have grows : (msbValue word + 1) * 2 ^ tail.length ≤
        (firstWord lengths word.length + wordCount lengths word.length) * 2 ^ tail.length := by
      refine Nat.mul_le_mul_right _ ?_
      rw [wordCount_of_pos positive]
      omega
    rw [List.length_append, msbValue_append] at value'
    rw [Nat.add_mul] at grows
    omega

/-! ## Kraft's inequality -/

/-- Weight of a symbol among the words of length at most `bound`. -/
def weight (bound len : Nat) : Nat := if len = 0 ∨ bound < len then 0 else 2 ^ (bound - len)

theorem weight_succ (bound len : Nat) :
    weight (bound + 1) len = 2 * weight bound len + if len = bound + 1 then 1 else 0 := by
  unfold weight
  by_cases none : len = 0
  · simp [none]
  by_cases here : len = bound + 1
  · simp [here]
  by_cases later : bound + 1 < len
  · have alsoLater : bound < len := by omega
    simp [later, alsoLater, here]
  · have within : ¬bound < len := by omega
    have step : bound + 1 - len = bound - len + 1 := by omega
    simp [none, later, within, here, step, Nat.pow_succ, Nat.mul_comm]

/-- The words used up to a length, counted at that length. -/
theorem sum_weight (bound : Nat) :
    (lengths.map (weight bound)).sum = firstWord lengths bound + wordCount lengths bound := by
  induction bound with
  | zero =>
      have none : weight 0 = fun _ => 0 := by
        funext len
        simp only [weight, ite_eq_left_iff]
        omega
      rw [none, List.map_const', List.sum_replicate_nat, Nat.mul_zero]
      rfl
  | succ bound ih =>
      rw [firstWord, ← ih, wordCount_of_pos (by omega : 0 < bound + 1)]
      clear ih
      induction lengths with
      | nil => rfl
      | cons len lengths ih =>
          rw [List.map_cons, List.map_cons, List.sum_cons, List.sum_cons, ih, weight_succ,
            List.count_cons]
          simp only [beq_iff_eq]
          omega

theorem kraft_iff_fits (short : ∀ len ∈ lengths, len ≤ maxLen) :
    Kraft maxLen lengths ↔ Fits maxLen lengths := by
  have total : (lengths.map fun len => if len = 0 then 0 else 2 ^ (maxLen - len)).sum =
      firstWord lengths maxLen + wordCount lengths maxLen := by
    rw [← sum_weight]
    refine congrArg List.sum (List.map_congr_left fun len member => ?_)
    have within : ¬maxLen < len := Nat.not_lt.mpr (short len member)
    simp [weight, within]
  rw [Kraft, total]
  constructor
  · intro bound len within
    obtain ⟨extra, rfl⟩ := Nat.exists_eq_add_of_le within
    by_cases last : extra = 0
    · simpa [last] using bound
    · have above := firstWord_above lengths len extra
        (Nat.pos_of_ne_zero last)
      rw [Nat.pow_add] at bound
      exact Nat.le_of_mul_le_mul_right (by omega) (Nat.two_pow_pos extra)
  · exact fun fits => fits maxLen (Nat.le_refl _)

/-! ## Positions in the sorted alphabet -/

theorem shorter_add_wordCount_le (lengths : List Nat) (ordered : len < len') :
    shorter lengths len + wordCount lengths len ≤ shorter lengths len' := by
  induction len' with
  | zero => omega
  | succ last ih =>
      rw [shorter]
      by_cases here : len = last
      · rw [here]
      · have below := ih (by omega)
        omega

/-- Symbols sorted by length, and by number within one length, are at different
positions. -/
theorem position_injective (positive : 0 < len) (positive' : 0 < len')
    (coded : lengths[sym]? = some len) (coded' : lengths[sym']? = some len')
    (same : shorter lengths len + rank lengths sym len =
      shorter lengths len' + rank lengths sym' len') : sym = sym' := by
  have below := rank_lt coded
  have below' := rank_lt coded'
  rw [← wordCount_of_pos positive] at below
  rw [← wordCount_of_pos positive'] at below'
  rcases Nat.lt_trichotomy len len' with before | equal | after
  · have apart := shorter_add_wordCount_le lengths before
    omega
  · subst equal
    exact rank_injective coded coded' (by omega)
  · have apart := shorter_add_wordCount_le lengths after
    omega

theorem shorter_add_wordCount_le_length (lengths : List Nat) (len : Nat) :
    shorter lengths len + wordCount lengths len ≤
      (lengths.filter fun other => other ≤ len).length := by
  induction len with
  | zero => simp [shorter, wordCount]
  | succ len ih =>
      rw [shorter, wordCount_of_pos (by omega : 0 < len + 1)]
      have split : (lengths.filter fun other => other ≤ len).length + lengths.count (len + 1) ≤
          (lengths.filter fun other => other ≤ len + 1).length := by
        clear ih
        induction lengths with
        | nil => simp
        | cons other lengths ih =>
            simp only [List.filter_cons, List.count_cons, beq_iff_eq]
            split_ifs <;> simp_all <;> omega
      omega

theorem position_lt (positive : 0 < len) (coded : lengths[sym]? = some len) :
    shorter lengths len + rank lengths sym len < lengths.length := by
  have below := rank_lt coded
  have total := shorter_add_wordCount_le_length lengths len
  have bound := List.length_filter_le (fun other => decide (other ≤ len)) lengths
  rw [wordCount_of_pos positive] at total
  omega

end CanonicalCode
