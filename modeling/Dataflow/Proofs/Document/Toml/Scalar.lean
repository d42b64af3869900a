import Dataflow.Document.Toml.Reader
import Dataflow.Text.Decimal
import Mathlib.Data.List.TakeWhile
import Mathlib.Tactic.SplitIfs

/-!
# Integers are read back

An integer is a row of digits with a minus sign in front of it where it is negative. Such a row is none
of the other scalars: it has neither the letters of a truth value, nor the point or the exponent of a
fraction, nor the marks within a date or a time of day.
-/

namespace Dataflow.Toml

/-! ## Integers -/

theorem isDigit_of_mem_digits {n : Nat} {c : Char} (h : c ∈ Decimal.digits n) : isDigit c := by
  have hbounds := Decimal.mem_digits h
  simp [isDigit, hbounds]

theorem not_mem_digits (n : Nat) {c : Char} (hc : isDigit c = false) : c ∉ Decimal.digits n :=
  fun h ↦ by simp [isDigit_of_mem_digits h] at hc

theorem valueIn_digits (n : Nat) : valueIn 10 (Decimal.digits n) = n := by
  induction n using Nat.strongRecOn with
  | ind n ih =>
    have hunit : digitValue (Decimal.unit n) = n % 10 := by
      have hlt : n % 10 < 10 := Nat.mod_lt n (by decide)
      have hdigit : isDigit (Decimal.unit n) := by
        simp only [isDigit, Decimal.toNat_unit, Bool.and_eq_true, decide_eq_true_eq]
        omega
      rw [digitValue, if_pos hdigit, Decimal.toNat_unit]
      omega
    rw [Decimal.digits]
    split
    · rename_i hn
      simp [valueIn, hunit, Nat.mod_eq_of_lt hn]
    · rename_i hn
      have hrest := ih (n / 10) (by omega)
      unfold valueIn at hrest ⊢
      rw [List.foldl_append, hrest, List.foldl_cons, List.foldl_nil, hunit]
      omega

theorem grouped_of_forall {digit : Char → Bool} (hunderscore : digit '_' = false) {cs : List Char}
    (hne : cs ≠ []) (h : ∀ c ∈ cs, digit c) : grouped digit cs = some cs := by
  induction cs with
  | nil => exact absurd rfl hne
  | cons c cs ih =>
    have hc := h c List.mem_cons_self
    cases cs with
    | nil => simp [grouped, hc]
    | cons d cs =>
      have hrest := ih (List.cons_ne_nil d cs) fun e he ↦ h e (List.mem_cons_of_mem c he)
      have hd : d ≠ '_' := by
        rintro rfl
        simp [hunderscore] at h
      rw [grouped, if_pos hc, hrest, Option.map_some]
      · exact fun h ↦ nomatch h
      · rintro _ ⟨rfl, rfl⟩
        exact hd rfl

theorem exists_digits_eq_cons {n : Nat} (h : 0 < n) :
    ∃ c rest, Decimal.digits n = c :: rest ∧ c ≠ '0' := by
  induction n using Nat.strongRecOn with
  | ind n ih =>
    rw [Decimal.digits]
    split
    · rename_i hn
      refine ⟨Decimal.unit n, [], rfl, fun hzero ↦ ?_⟩
      have hunit := congrArg Char.toNat hzero
      rw [Decimal.toNat_unit, Nat.mod_eq_of_lt hn] at hunit
      exact Nat.ne_of_gt h (Nat.add_left_cancel hunit)
    · rename_i hn
      obtain ⟨c, rest, hdigits, hc⟩ := ih (n / 10) (by omega) (by omega)
      exact ⟨c, rest ++ [Decimal.unit n], by rw [hdigits, List.cons_append], hc⟩

theorem wholeDigits_digits (n : Nat) : wholeDigits (Decimal.digits n) = some (Decimal.digits n) := by
  have hgrouped := grouped_of_forall rfl (Decimal.digits_ne_nil n) fun c ↦ isDigit_of_mem_digits
  rw [wholeDigits, hgrouped]
  rcases Nat.eq_zero_or_pos n with rfl | hn
  · simp [Decimal.digits]
  · obtain ⟨c, rest, hdigits, hc⟩ := exists_digits_eq_cons hn
    simp [hdigits, hc]

theorem integer?_digits (n : Nat) : integer? (Decimal.digits n) = fitInteger n := by
  unfold integer?
  split
  · rename_i h
    exact absurd (h ▸ by simp) (not_mem_digits n (c := 'x') rfl)
  · rename_i h
    exact absurd (h ▸ by simp) (not_mem_digits n (c := 'o') rfl)
  · rename_i h
    exact absurd (h ▸ by simp) (not_mem_digits n (c := 'b') rfl)
  · rename_i h
    exact absurd (h ▸ by simp) (not_mem_digits n (c := '+') rfl)
  · rename_i h
    exact absurd (h ▸ by simp) (not_mem_digits n (c := '-') rfl)
  · rw [wholeDigits_digits, Option.bind_some, valueIn_digits]

theorem integer?_neg_digits (n : Nat) :
    integer? ('-' :: Decimal.digits n) = fitInteger (-(n : Int)) := by
  have h : integer? ('-' :: Decimal.digits n) =
      (wholeDigits (Decimal.digits n)).bind fun d ↦ fitInteger (-(valueIn 10 d : Int)) := rfl
  rw [h, wholeDigits_digits, Option.bind_some, valueIn_digits]

/-! ## No other scalars -/

variable {cs : List Char}

theorem pair_minus (low high : Nat) (cs : List Char) : pair low high ('-' :: cs) = none := by
  cases cs <;> rfl

theorem mem_of_pair {low high : Nat} {p : Nat × List Char} {c : Char}
    (h : pair low high cs = some p) (hc : c ∈ p.2) : c ∈ cs := by
  unfold pair at h
  split at h
  · rename_i a b rest
    simp only at h
    split_ifs at h
    cases h
    exact List.mem_cons_of_mem a (List.mem_cons_of_mem b hc)
  · cases h

theorem mem_of_expect {d : Char} {rest : List Char} (h : expect d cs = some rest) : d ∈ cs := by
  unfold expect at h
  split at h
  · split_ifs at h with hd
    rw [beq_iff_eq.mp hd]
    exact List.mem_cons_self
  · cases h

theorem afterDate_eq_none (h : '-' ∉ cs) : afterDate cs = none := by
  unfold afterDate
  cases hcentury : pair 0 99 cs with
  | none => rfl
  | some century =>
    cases hyear : pair 0 99 century.2 with
    | none => simp [hyear]
    | some year =>
      cases hmark : expect '-' year.2 with
      | none => simp [hyear, hmark]
      | some rest => exact absurd (mem_of_pair hcentury (mem_of_pair hyear (mem_of_expect hmark))) h

theorem afterTime_eq_none (h : ':' ∉ cs) : afterTime cs = none := by
  unfold afterTime
  cases hhour : pair 0 23 cs with
  | none => rfl
  | some hour =>
    cases hmark : expect ':' hour.2 with
    | none => simp [hmark]
    | some rest => exact absurd (mem_of_pair hhour (mem_of_expect hmark)) h

theorem unsignedFraction?_eq_none (negative : Bool) (h : ∀ c ∈ cs, isDigit c) :
    unsignedFraction? negative cs = none := by
  have hall : ∀ c ∈ cs, (c != '.' && !isExponentMark c) = true := fun c hc ↦ by
    have hdigit := h c hc
    refine Bool.and_eq_true_iff.mpr ⟨bne_iff_ne.mpr ?_, ?_⟩
    · rintro rfl
      cases hdigit
    · rw [Bool.not_eq_true', isExponentMark, Bool.or_eq_false_iff, beq_eq_false_iff_ne,
        beq_eq_false_iff_ne]
      constructor <;> rintro rfl <;> cases hdigit
  have hnone : cs.dropWhile (fun c ↦ c != '.' && !isExponentMark c) = [] :=
    List.dropWhile_eq_nil_iff.mpr hall
  unfold unsignedFraction?
  rw [hnone]
  cases wholeDigits (cs.takeWhile fun c ↦ c != '.' && !isExponentMark c) <;> rfl

theorem isSpecial_eq_false (h : ∀ c ∈ cs, isLetter c = false) : isSpecial cs = false := by
  have hne {unsigned : List Char} (hmem : ∀ c ∈ unsigned, c ∈ cs) :
      (unsigned == "inf".toList || unsigned == "nan".toList) = false := by
    rw [Bool.or_eq_false_iff, beq_eq_false_iff_ne, beq_eq_false_iff_ne]
    constructor <;> rintro rfl <;> cases h 'n' (hmem 'n' (by decide))
  unfold isSpecial
  split
  · exact hne fun c ↦ List.mem_cons_of_mem '+'
  · exact hne fun c ↦ List.mem_cons_of_mem '-'
  · exact hne fun c ↦ id

theorem isLiteral_eq_false (hletter : ∀ c ∈ cs, isLetter c = false) (hdate : afterDate cs = none)
    (htime : afterTime cs = none) (hfraction : fraction? cs = none) : isLiteral cs = false := by
  have htrue : (cs == "true".toList) = false := by
    rw [beq_eq_false_iff_ne]
    rintro rfl
    cases hletter 't' (by decide)
  have hfalse : (cs == "false".toList) = false := by
    rw [beq_eq_false_iff_ne]
    rintro rfl
    cases hletter 'f' (by decide)
  rw [isLiteral, htrue, hfalse, isSpecial_eq_false hletter, isFraction, hfraction, isDate, hdate,
    isTime, htime, isMoment, hdate]
  rfl

theorem isLetter_of_isDigit {c : Char} (h : isDigit c) : isLetter c = false := by
  simp only [isDigit, isLetter, Bool.and_eq_true, decide_eq_true_eq, Bool.or_eq_false_iff,
    Bool.and_eq_false_iff, decide_eq_false_iff_not] at h ⊢
  omega

/-! ## A whole word -/

@[simp]
theorem toList_intText_ofNat (n : Nat) : (Decimal.intText (.ofNat n)).toList = Decimal.digits n := by
  rw [Decimal.intText, Decimal.text, String.toList_ofList]

@[simp]
theorem toList_intText_negSucc (n : Nat) :
    (Decimal.intText (.negSucc n)).toList = '-' :: Decimal.digits (n + 1) := by
  simp [Decimal.intText, Decimal.text]

theorem isLiteral_digits (n : Nat) : isLiteral (Decimal.digits n) = false := by
  refine isLiteral_eq_false (fun c hc ↦ isLetter_of_isDigit (isDigit_of_mem_digits hc))
    (afterDate_eq_none (not_mem_digits n rfl)) (afterTime_eq_none (not_mem_digits n rfl)) ?_
  unfold fraction?
  split
  · rename_i h
    exact absurd (h ▸ List.mem_cons_self) (not_mem_digits n (c := '+') rfl)
  · rename_i h
    exact absurd (h ▸ List.mem_cons_self) (not_mem_digits n (c := '-') rfl)
  · exact unsignedFraction?_eq_none false fun c ↦ isDigit_of_mem_digits

theorem isLiteral_neg_digits (n : Nat) : isLiteral ('-' :: Decimal.digits n) = false := by
  have hdate : afterDate ('-' :: Decimal.digits n) = none := by
    rw [afterDate, pair_minus]
    rfl
  have htime : ':' ∉ '-' :: Decimal.digits n :=
    List.not_mem_cons_of_ne_of_not_mem (by decide) (not_mem_digits n rfl)
  refine isLiteral_eq_false (fun c hc ↦ ?_) hdate (afterTime_eq_none htime)
    (unsignedFraction?_eq_none true fun c ↦ isDigit_of_mem_digits)
  rcases List.mem_cons.mp hc with rfl | hc
  · rfl
  · exact isLetter_of_isDigit (isDigit_of_mem_digits hc)

theorem isLiteral_intText (n : Int) : isLiteral (Decimal.intText n).toList = false := by
  cases n with
  | ofNat n => rw [toList_intText_ofNat, isLiteral_digits]
  | negSucc n => rw [toList_intText_negSucc, isLiteral_neg_digits]

theorem integer?_intText (n : Int) : integer? (Decimal.intText n).toList = fitInteger n := by
  cases n with
  | ofNat n => exact (congrArg integer? (toList_intText_ofNat n)).trans (integer?_digits n)
  | negSucc n =>
    exact (congrArg integer? (toList_intText_negSucc n)).trans (integer?_neg_digits (n + 1))

theorem isScalarChar_of_mem_intText {n : Int} {c : Char} (h : c ∈ (Decimal.intText n).toList) :
    isScalarChar c := by
  have hdigit {m : Nat} (hc : c ∈ Decimal.digits m) : isScalarChar c := by
    simp [isScalarChar, isDigit_of_mem_digits hc]
  cases n with
  | ofNat n => exact hdigit (toList_intText_ofNat n ▸ h)
  | negSucc n =>
    rw [toList_intText_negSucc] at h
    rcases List.mem_cons.mp h with rfl | h
    · rfl
    · exact hdigit h

/-- What is looked for ends where the text behind it begins. -/
theorem span_append {p : Char → Bool} {cs rest : List Char} (hcs : ∀ c ∈ cs, p c)
    (hrest : ∀ c ∈ rest.head?, p c = false) :
    (cs ++ rest).takeWhile p = cs ∧ (cs ++ rest).dropWhile p = rest := by
  rw [List.takeWhile_append_of_pos hcs, List.dropWhile_append_of_pos hcs]
  cases rest with
  | nil => simp
  | cons c rest => simp [hrest c rfl]

/-- A written integer is read back. -/
theorem bare_intText {n : Int} (h : fitInteger n = some n) {rest : List Char}
    (hrest : ∀ c ∈ rest.head?, isScalarChar c = false) :
    bare ((Decimal.intText n).toList ++ rest) = some (.integer n, rest) := by
  obtain ⟨htake, hdrop⟩ := span_append (fun c ↦ isScalarChar_of_mem_intText) hrest
  have hword : word? (Decimal.intText n).toList = some (.integer n) := by
    rw [word?, isLiteral_intText, integer?_intText, h]
    rfl
  have hdate : isDate (Decimal.intText n).toList = false := by
    have hliteral := isLiteral_intText n
    simp only [isLiteral, Bool.or_eq_false_iff] at hliteral
    exact hliteral.1.1.2
  unfold bare
  rw [htake, hdrop]
  simp only [hdate, hword, Bool.false_and, Bool.false_eq_true, if_false, Option.map_some]
  split <;> rfl

end Dataflow.Toml
