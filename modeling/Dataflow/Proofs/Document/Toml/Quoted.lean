import Dataflow.Document.Toml.Quoted
import Dataflow.Document.Toml.Writer
import Mathlib.Tactic.SplitIfs

/-!
# Quoted text is read back

In whichever way a text is quoted, reading gives the text and leaves what stands behind the quotes. On
several lines quotes may stand in the text as they are, up to two in a row, and only what follows them
tells whether they belong to the text. So there the readers are followed with a run of quotes in front
of them.
-/

namespace Dataflow.Toml

/-! ## Escapes -/

@[simp]
theorem Quoted.cons_some (c : Char) (text rest : List Char) :
    Quoted.cons c (some (text, rest)) = some (c :: text, rest) := rfl

theorem scalarOf?_hexDigits {n : Nat} (h : n < 128) :
    scalarOf? ['0', '0', hexDigit (n / 16), hexDigit (n % 16)] = some (Char.ofNat n) := by
  have hall : ∀ n < 128,
      scalarOf? ['0', '0', hexDigit (n / 16), hexDigit (n % 16)] = some (Char.ofNat n) := by
    decide +kernel
  exact hall n h

theorem ne_of_isPlain {c : Char} (h : isPlain c) : c ≠ '\n' ∧ c ≠ '\r' := by
  constructor <;> rintro rfl <;> cases h

/-- The reader takes the escapes between double quotes for what they stand for. -/
structure ReadsEscapes (read : List Char → Quoted) : Prop where
  letter {e c : Char} {rest : List Char} (h : escaped? e = some c) :
    read ('\\' :: e :: rest) = (read rest).cons c
  scalar {a b c d : Char} {rest : List Char} :
    read ('\\' :: 'u' :: a :: b :: c :: d :: rest) = (read rest).consScalar [a, b, c, d]
  plain {c : Char} {rest : List Char} (h : isPlain c) (hquote : c ≠ '"') (hslash : c ≠ '\\') :
    read (c :: rest) = (read rest).cons c

theorem readsEscapes_basic : ReadsEscapes basic where
  letter {e c rest} h := by
    unfold escaped? at h
    split at h <;> cases h <;> rfl
  scalar := rfl
  plain {c rest} h hquote hslash := by
    rw [basic] <;> simp_all

theorem readsEscapes_basicLines : ReadsEscapes (basicLines .inside) where
  letter {e c rest} h := by
    unfold escaped? at h
    split at h <;> cases h <;> rfl
  scalar := rfl
  plain {c rest} h hquote hslash := by
    obtain ⟨hnewline, hreturn⟩ := ne_of_isPlain h
    rw [basicLines] <;> simp_all

/-- An escaped character is read back. -/
theorem ReadsEscapes.escape {read : List Char → Quoted} (hread : ReadsEscapes read) {c : Char}
    (hquote : c ≠ '"') (rest : List Char) : read (escape c ++ rest) = (read rest).cons c := by
  have hletter {e : Char} (h : escaped? e = some c) :
      read (['\\', e] ++ rest) = (read rest).cons c := hread.letter h
  have hnumber {n : Nat} (h : (c.toNat == n) = true) : Char.ofNat n = c := by
    rw [← beq_iff_eq.mp h, Char.ofNat_toNat]
  unfold Toml.escape
  split_ifs with hslash htab hbackspace hfeed hreturn hcontrol
  · exact hletter (congrArg some (beq_iff_eq.mp hslash).symm)
  · exact hletter (congrArg some (beq_iff_eq.mp htab).symm)
  · exact hletter (congrArg some (hnumber hbackspace))
  · exact hletter (congrArg some (hnumber hfeed))
  · exact hletter (congrArg some (beq_iff_eq.mp hreturn).symm)
  · have hlt : c.toNat < 128 := by
      simp only [isControl, Bool.or_eq_true, decide_eq_true_eq, beq_iff_eq] at hcontrol
      omega
    refine hread.scalar.trans ?_
    rw [Quoted.consScalar, scalarOf?_hexDigits hlt, Char.ofNat_toNat, List.append_eq,
      List.nil_append]
  · exact hread.plain (by simp [isPlain, hcontrol]) hquote (by simpa using hslash)

/-! ## One line -/

theorem basic_basicBody (cs rest : List Char) :
    basic (basicBody cs ++ '"' :: rest) = some (cs, rest) := by
  induction cs with
  | nil => rfl
  | cons c cs ih =>
    simp only [basicBody, List.flatMap_cons, List.append_assoc] at ih ⊢
    split_ifs with hnewline hquote
    · rw [List.cons_append, List.singleton_append, readsEscapes_basic.letter (c := '\n') rfl, ih,
        Quoted.cons_some, beq_iff_eq.mp hnewline]
    · rw [List.cons_append, List.singleton_append, readsEscapes_basic.letter (c := '"') rfl, ih,
        Quoted.cons_some, beq_iff_eq.mp hquote]
    · rw [readsEscapes_basic.escape (by simpa using hquote), ih, Quoted.cons_some]

theorem literal_append {cs : List Char} (hplain : ∀ c ∈ cs, isPlain c) (hquote : '\'' ∉ cs)
    (rest : List Char) : literal (cs ++ '\'' :: rest) = some (cs, rest) := by
  induction cs with
  | nil => rfl
  | cons c cs ih =>
    have hc := hplain c List.mem_cons_self
    have hne := List.ne_of_not_mem_cons hquote
    have hrest := ih (fun d hd ↦ hplain d (List.mem_cons_of_mem c hd))
      (List.not_mem_of_not_mem_cons hquote)
    rw [List.cons_append, literal, if_pos hc, hrest, Quoted.cons_some]
    exact fun h ↦ hne h.symm

/-! ## Several lines -/

theorem closing_replicate {quote : Char} {n : Nat} (hn : n ≤ 2) {rest : List Char}
    (hrest : rest.head? ≠ some quote) :
    closing quote (List.replicate n quote ++ rest) = some (List.replicate n quote, rest) := by
  match n, rest with
  | 0, [] => rfl
  | 1, [] => simp [closing]
  | 2, [] => simp [closing]
  | 0, [c] => simp_all [closing]
  | 0, c :: d :: rest => simp_all [closing]
  | 1, c :: rest => simp_all [closing]
  | 2, c :: rest => simp_all [closing, List.replicate_succ]

/-- An escape begins with a backslash or is the character itself, which is not a control character. -/
theorem head?_escape {c d : Char} (hslash : d ≠ '\\') (h : isControl d ∨ c ≠ d) (rest : List Char) :
    (escape c ++ rest).head? ≠ some d := by
  unfold escape
  split_ifs <;> grind

/-- A quote belongs to the text unless two more follow it. -/
theorem basicLines_quote {cs : List Char} (h : ∀ rest, cs ≠ '"' :: '"' :: rest) :
    basicLines .inside ('"' :: cs) = (basicLines .inside cs).cons '"' := by
  have hplain : isPlain '"' := rfl
  rw [basicLines] <;> simp_all

theorem basicLines_replicate {run : Nat} (hrun : run ≤ 2) {cs text rest : List Char}
    (hcs : cs.head? ≠ some '"') (h : basicLines .inside cs = some (text, rest)) :
    basicLines .inside (List.replicate run '"' ++ cs) =
      some (List.replicate run '"' ++ text, rest) := by
  match run with
  | 0 => exact h
  | 1 =>
    rw [List.replicate_one, List.singleton_append, basicLines_quote, h]
    · rfl
    · rintro _ rfl
      exact hcs rfl
  | 2 =>
    have hone : basicLines .inside ('"' :: cs) = some ('"' :: text, rest) := by
      rw [basicLines_quote, h, Quoted.cons_some]
      rintro _ rfl
      exact hcs rfl
    change basicLines .inside ('"' :: '"' :: cs) = some ('"' :: '"' :: text, rest)
    rw [basicLines_quote, hone, Quoted.cons_some]
    rintro _ h
    cases cs <;> simp_all

/-- Up to two quotes that have been put in front of the body of a text are read with it. -/
theorem basicLines_basicLinesBody (cs : List Char) {run : Nat} (hrun : run ≤ 2) {rest : List Char}
    (hrest : rest.head? ≠ some '"') :
    basicLines .inside
        (List.replicate run '"' ++ (basicLinesBody run cs ++ '"' :: '"' :: '"' :: rest)) =
      some (List.replicate run '"' ++ cs, rest) := by
  induction cs generalizing run with
  | nil =>
    have hquotes : List.replicate run '"' ++ '"' :: '"' :: '"' :: rest =
        '"' :: '"' :: '"' :: (List.replicate run '"' ++ rest) := by
      match run with
      | 0 | 1 | 2 => rfl
    rw [basicLinesBody, List.nil_append, hquotes, List.append_nil]
    exact closing_replicate hrun hrest
  | cons c cs ih =>
    have hstart := ih (Nat.zero_le 2)
    rw [List.replicate_zero, List.nil_append, List.nil_append] at hstart
    rw [basicLinesBody]
    split_ifs with hquote hfull hnewline
    · refine basicLines_replicate hrun (by simp) ?_
      rw [List.cons_append, List.cons_append, readsEscapes_basicLines.letter (c := '"') rfl, hstart,
        Quoted.cons_some, beq_iff_eq.mp hquote]
    · have hrun' : run + 1 ≤ 2 := by
        have hne : run ≠ 2 := by simpa using hfull
        omega
      have hrow := ih hrun'
      rw [List.replicate_succ', List.append_assoc, List.append_assoc] at hrow
      rw [beq_iff_eq.mp hquote]
      exact hrow
    · refine basicLines_replicate hrun (by simp) ?_
      rw [beq_iff_eq.mp hnewline, List.cons_append]
      exact congrArg (Quoted.cons '\n') hstart
    · have hne : c ≠ '"' := by simpa using hquote
      rw [List.append_assoc (escape c)]
      refine basicLines_replicate hrun (head?_escape (by decide) (.inr hne) _) ?_
      rw [readsEscapes_basicLines.escape hne, hstart, Quoted.cons_some]

theorem literalLines_quote {cs : List Char} (h : ∀ rest, cs ≠ '\'' :: '\'' :: rest) :
    literalLines ('\'' :: cs) = (literalLines cs).cons '\'' := by
  have hplain : isPlain '\'' := rfl
  rw [literalLines] <;> simp_all

theorem hasRun_of_cons {q c : Char} {cs : List Char} (h : hasRun q (c :: cs) = false) :
    hasRun q cs = false := by
  match cs with
  | [] | [_] => rfl
  | a :: b :: cs =>
    rw [hasRun, Bool.or_eq_false_iff] at h
    exact h.2

/-- No two more quotes follow a quote, but for those behind the text. -/
theorem of_hasRun_eq_false {q : Char} {cs : List Char} (h : hasRun q (q :: cs) = false) :
    cs = [] ∨ cs = [q] ∨ ∀ tail rest, cs ++ tail ≠ q :: q :: rest := by
  match cs with
  | [] => exact .inl rfl
  | [a] =>
    by_cases ha : a = q
    · exact .inr (.inl (congrArg ([·]) ha))
    · exact .inr (.inr fun tail rest heq ↦ ha (List.cons.inj heq).1)
  | a :: b :: cs =>
    refine .inr (.inr fun tail rest heq ↦ ?_)
    obtain ⟨rfl, heq⟩ := List.cons.inj heq
    obtain ⟨rfl, -⟩ := List.cons.inj heq
    simp [hasRun] at h

theorem literalLines_append {cs rest : List Char} (hplain : ∀ c ∈ cs, isPlain c ∨ c = '\n')
    (hrun : hasRun '\'' cs = false) (hrest : rest.head? ≠ some '\'') :
    literalLines (cs ++ '\'' :: '\'' :: '\'' :: rest) = some (cs, rest) := by
  induction cs with
  | nil => exact closing_replicate (Nat.zero_le 2) hrest
  | cons c cs ih =>
    have hstep := ih (fun d hd ↦ hplain d (List.mem_cons_of_mem c hd)) (hasRun_of_cons hrun)
    rcases hplain c List.mem_cons_self with hc | rfl
    · by_cases hquote : c = '\''
      · subst hquote
        rcases of_hasRun_eq_false hrun with rfl | rfl | hne
        · exact closing_replicate (n := 1) (by decide) hrest
        · exact closing_replicate (n := 2) (by decide) hrest
        · rw [List.cons_append, literalLines_quote (hne _), hstep, Quoted.cons_some]
      · obtain ⟨hnewline, hreturn⟩ := ne_of_isPlain hc
        rw [List.cons_append, literalLines] <;> simp_all
    · exact congrArg (Quoted.cons '\n') hstep

/-! ## Any form -/

theorem quoted_double {cs : List Char} (h : ∀ rest, cs ≠ '"' :: '"' :: rest) :
    quoted ('"' :: cs) = basic cs := by
  rw [quoted]
  simp_all

theorem quoted_single {cs : List Char} (h : ∀ rest, cs ≠ '\'' :: '\'' :: rest) :
    quoted ('\'' :: cs) = literal cs := by
  rw [quoted]
  simp_all

/-- The line break that is put behind the opening quotes is the one that does not count. -/
theorem opened_start {cs body : List Char} (hnewline : body.head? = some '\n' → '\n' ∈ cs)
    (hreturn : body.head? ≠ some '\r') :
    opened ((if cs.contains '\n' then ['\n'] else []) ++ body) = body := by
  split_ifs with hcontains
  · rfl
  · rw [List.contains_iff_mem] at hcontains
    rw [List.nil_append]
    unfold opened
    split <;> simp_all

theorem head?_basicBody {cs : List Char} (h : cs ≠ []) (rest : List Char) :
    (basicBody cs ++ rest).head? ≠ some '"' := by
  cases cs with
  | nil => exact absurd rfl h
  | cons c cs =>
    simp only [basicBody, List.flatMap_cons, List.append_assoc]
    split_ifs with hnewline hquote
    · simp
    · simp
    · exact head?_escape (by decide) (.inr (by simpa using hquote)) _

theorem quoted_basic (cs : List Char) {rest : List Char} (hrest : rest.head? ≠ some '"') :
    quoted ('"' :: (basicBody cs ++ '"' :: rest)) = some (cs, rest) := by
  rw [quoted_double, basic_basicBody]
  intro tail h
  by_cases hnil : cs = []
  · subst hnil
    exact hrest (by rw [(List.cons.inj h).2, List.head?_cons])
  · exact head?_basicBody hnil _ (by rw [h, List.head?_cons])

theorem quoted_literal {cs : List Char} (hplain : ∀ c ∈ cs, isPlain c) (hquote : '\'' ∉ cs)
    {rest : List Char} (hrest : rest.head? ≠ some '\'') :
    quoted ('\'' :: (cs ++ '\'' :: rest)) = some (cs, rest) := by
  rw [quoted_single, literal_append hplain hquote]
  intro tail h
  cases cs with
  | nil => exact hrest (by rw [(List.cons.inj h).2, List.head?_cons])
  | cons c cs => exact hquote (by rw [(List.cons.inj h).1]; exact List.mem_cons_self)

/-- No control character but a line break stands as it is. -/
theorem head?_basicLinesBody {cs rest : List Char} {d : Char} (hd : isControl d)
    (h : (basicLinesBody 0 cs ++ '"' :: rest).head? = some d) : d = '\n' ∧ '\n' ∈ cs := by
  cases cs with
  | nil =>
    cases h
    cases hd
  | cons c cs =>
    rw [basicLinesBody] at h
    split_ifs at h with hquote hfull hnewline
    · cases h
      cases hd
    · cases h
      cases hd
    · cases h
      exact ⟨rfl, beq_iff_eq.mp hnewline ▸ List.mem_cons_self⟩
    · rw [List.append_assoc] at h
      have hslash : d ≠ '\\' := by
        rintro rfl
        cases hd
      exact absurd h (head?_escape hslash (.inl hd) _)

theorem quoted_basicLines (cs : List Char) {rest : List Char} (hrest : rest.head? ≠ some '"') :
    quoted ('"' :: '"' :: '"' :: ((if cs.contains '\n' then ['\n'] else []) ++
      (basicLinesBody 0 cs ++ '"' :: '"' :: '"' :: rest))) = some (cs, rest) := by
  rw [quoted, opened_start]
  · exact basicLines_basicLinesBody cs (Nat.zero_le 2) hrest
  · exact fun h ↦ (head?_basicLinesBody rfl h).2
  · exact fun h ↦ absurd (head?_basicLinesBody rfl h).1 (by decide)

theorem quoted_literalLines {cs : List Char} (hplain : ∀ c ∈ cs, isPlain c ∨ c = '\n')
    (hrun : hasRun '\'' cs = false) {rest : List Char} (hrest : rest.head? ≠ some '\'') :
    quoted ('\'' :: '\'' :: '\'' :: ((if cs.contains '\n' then ['\n'] else []) ++
      (cs ++ '\'' :: '\'' :: '\'' :: rest))) = some (cs, rest) := by
  rw [quoted, opened_start, literalLines_append hplain hrun hrest]
  · cases cs with
    | nil => simp
    | cons c cs =>
      rintro ⟨⟩
      exact List.mem_cons_self
  · cases cs with
    | nil => simp
    | cons c cs =>
      rintro ⟨⟩
      exact absurd (hplain '\r' List.mem_cons_self) (by decide)

theorem choose_eq_literal {t : TextTraits} (h : Quotes.choose t = .literal) :
    t.controls = false ∧ t.single = false ∧ t.newline = false := by
  unfold Quotes.choose at h
  split_ifs at h
  simp_all

theorem choose_eq_literalLines {t : TextTraits} (h : Quotes.choose t = .literalLines) :
    t.controls = false ∧ t.singleRun = false := by
  unfold Quotes.choose at h
  split_ifs at h
  simp_all

theorem isPlain_or_of_controls {cs : List Char} (h : (TextTraits.of cs).controls = false) :
    ∀ c ∈ cs, isPlain c ∨ c = '\n' := by
  intro c hc
  have hall := List.any_eq_false.mp h c hc
  rw [isPlain]
  grind

/-- A quoted text is read back. -/
theorem quoted_quote (s : String) {rest : List Char} (hdouble : rest.head? ≠ some '"')
    (hsingle : rest.head? ≠ some '\'') : quoted ((quote s).toList ++ rest) = some (s.toList, rest) := by
  simp only [quote, String.toList_ofList]
  cases hchoice : Quotes.choose (TextTraits.of s.toList) with
  | basic => simpa using quoted_basic s.toList hdouble
  | literal =>
    obtain ⟨hcontrols, hquote, hnewline⟩ := choose_eq_literal hchoice
    have hplain : ∀ c ∈ s.toList, isPlain c := fun c hc ↦ by
      refine (isPlain_or_of_controls hcontrols c hc).resolve_right ?_
      rintro rfl
      simp_all [TextTraits.of]
    simpa using quoted_literal hplain (by simpa [TextTraits.of] using hquote) hsingle
  | basicLines => simpa [TextTraits.of] using quoted_basicLines s.toList hdouble
  | literalLines =>
    obtain ⟨hcontrols, hrun⟩ := choose_eq_literalLines hchoice
    simpa [TextTraits.of] using
      quoted_literalLines (isPlain_or_of_controls hcontrols) hrun hsingle

end Dataflow.Toml
