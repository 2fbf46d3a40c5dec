import Mathlib.Data.List.Induction
import ThreeAddress.Proofs.MaximalMunch

/-!
# Literals that do not keep their value

A literal stands for the value of its digits as long as that fits a signed word, and for the
largest such word otherwise. The report that a number is too long looks at something else: it
compares how many digits there are with a limit that can be chosen. So a literal may lose its
value without a report.

It takes 19 digits to lose a value (`length_of_literal_ne_value`), and 19 are enough for it.
Hence every loss is reported if the limit is below 19, and under no other limit is that so:
`9223372036854775808` is then read as the number before it, and nothing is said.

`scan_reports_lost_values_iff` states this. It also says which literals are reported under
any limit, and there a literal with many zeros in front is one whose value is kept.
-/

set_option autoImplicit false

namespace ThreeAddress

/-! ### How many digits a value takes -/

namespace Decimal

variable {digits : List Char}

/-- A digit says less than ten. -/
theorem digit_lt {c : Char} (hc : c.isDigit = true) : digit c < 10 := by
  have hle : c.toNat ≤ '9'.toNat := (Char.isDigit_iff_toNat.mp hc).2
  show c.toNat - 48 < 10
  have h9 : '9'.toNat = 57 := rfl
  omega

/-- A run of `k` digits says less than the `k`-th power of ten. The induction takes the digits
from the end, where the last one is added. -/
theorem value_lt_pow (h : ∀ c ∈ digits, c.isDigit = true) :
    value digits < Nat.pow 10 digits.length := by
  induction digits using List.reverseRecOn with
  | nil => exact Nat.one_pos
  | append_singleton front last ih =>
      obtain ⟨hfront, hlast⟩ := List.forall_mem_append.mp h
      have hlt := digit_lt (hlast last (List.mem_singleton_self last))
      have hvalue := ih hfront
      -- In front of the last digit stand at most `10 ^ k - 1`, and with it ten times that and
      -- nine.
      rw [value_append_singleton, List.length_append, List.length_singleton]
      show 10 * value front + digit last < Nat.pow 10 front.length * 10
      omega

/-- Every number of 18 digits fits a signed word. -/
theorem value_le_of_length (h : ∀ c ∈ digits, c.isDigit = true) (hshort : digits.length < 19) :
    value digits ≤ literalMax := by
  have hpow : Nat.pow 10 digits.length ≤ Nat.pow 10 18 :=
    Nat.pow_le_pow_right (by decide) (by omega)
  -- The largest literal is a little more than nine times this power.
  have hmax : Nat.pow 10 18 ≤ literalMax := by decide
  exact Nat.le_of_lt (Nat.lt_of_lt_of_le (value_lt_pow h) (Nat.le_trans hpow hmax))

/-- A literal that does not keep its value has at least 19 digits. -/
theorem length_of_literal_ne_value (h : ∀ c ∈ digits, c.isDigit = true)
    (hne : literal digits ≠ value digits) : 19 ≤ digits.length := by
  by_contra hshort
  exact hne ((literal_eq_value_iff digits).mpr (value_le_of_length h (by omega)))

end Decimal

/-- The numbers of a source are written in digits. -/
theorem isDigit_of_number_mem_scan {source digits : String}
    (h : .number digits ∈ (scan source).lexemes) : ∀ c ∈ digits.toList, c.isDigit = true := by
  obtain ⟨token, hmem, hlexeme⟩ := List.mem_map.mp h
  -- Every token of a scan denotes its segment of the source, and a number denotes digits.
  obtain ⟨p, hcut⟩ := exists_cut 1 source.toList
  have hdenotes := hcut.denotes token hmem
  rw [hlexeme] at hdenotes
  exact List.all_eq_true.mp (hdenotes.all_isDigit.mpr ⟨_, rfl⟩)

/-! ### What is delivered and what is reported -/

section
variable (options : Options) (source : String) (k : Nat) (digits : String)

/-- What is delivered after `k` other lexemes is written `digits` and is the number `n`. -/
def DeliversNumber (n : Nat) : Prop :=
  ∃ lexeme, (Generate.State.pulled options source k).input.current? = some lexeme ∧
    lexeme.text = digits ∧ lexeme.terminal = .number n

/-- When the lexeme after `k` others is delivered, there is a report that a number at its line,
written `digits`, is too long. -/
def ReportsTooLong : Prop :=
  ⟨(Generate.State.pulled options source k).input.line,
    .numberTooLong digits options.maxDigits.toNat⟩
      ∈ (Generate.State.pulled options source k).diagnostics.toList

variable {options source k digits}

/-- A number that is delivered is a token of the source. -/
theorem DeliversNumber.exists_token {n : Nat} (h : DeliversNumber options source k digits n) :
    (scan source).tokens[k]? = some
        ⟨.number digits, (Generate.State.pulled options source k).input.line⟩ ∧
      n = Decimal.literal digits.toList := by
  obtain ⟨lexeme, hcurrent, htext, hterminal⟩ := h
  have hlexeme : lexeme = .number digits := by
    -- Only numbers are terminals of this kind.
    cases lexeme with
    | number run => exact congrArg Lexeme.number htext
    | _ => exact nomatch hterminal
  subst hlexeme
  refine ⟨?_, (Terminal.number.inj hterminal).symm⟩
  rw [Generate.State.input_pulled] at hcurrent ⊢
  rw [← List.head?_drop]
  cases hdrop : (scan source).tokens.drop k with
  | nil =>
      rw [hdrop] at hcurrent
      exact nomatch hcurrent
  | cons token rest =>
      rw [hdrop] at hcurrent
      obtain ⟨lexeme, line⟩ := token
      obtain rfl : lexeme = .number digits := Option.some.inj hcurrent
      rfl

/-- A number that is delivered is written in digits. -/
theorem DeliversNumber.isDigit {n : Nat} (h : DeliversNumber options source k digits n) :
    ∀ c ∈ digits.toList, c.isDigit = true :=
  isDigit_of_number_mem_scan
    (List.mem_map.mpr ⟨_, List.mem_of_getElem? h.exists_token.1, rfl⟩)

/-- What is reported as too long is a number with too many digits. -/
theorem Token.of_overlong? {token : Token} {max line : Nat}
    (h : token.overlong? max = some ⟨line, .numberTooLong digits max⟩) : max < digits.length := by
  obtain ⟨lexeme, row⟩ := token
  cases lexeme with
  | number run =>
      unfold overlong? at h
      simp only [Option.ite_none_right_eq_some, Option.some.injEq, Diagnostic.mk.injEq,
        Problem.numberTooLong.injEq, and_true] at h
      obtain ⟨hlong, -, rfl⟩ := h
      exact hlong
  | _ => exact nomatch h

/-- Whether a number is reported depends on how many digits it has. -/
theorem DeliversNumber.reportsTooLong_iff {n : Nat}
    (h : DeliversNumber options source k digits n) :
    ReportsTooLong options source k digits ↔ options.maxDigits.toNat < digits.length := by
  unfold ReportsTooLong
  rw [Generate.State.diagnostics_pulled, List.mem_filterMap]
  constructor
  · -- An earlier token may have been reported in the same words, but it has the same digits.
    rintro ⟨token, -, htoken⟩
    exact Token.of_overlong? htoken
  · intro hlong
    -- The token is the last of those that have become current so far.
    refine ⟨⟨.number digits, _⟩, List.mem_of_getElem? (i := k) ?_, if_pos hlong⟩
    rw [List.getElem?_take_of_lt (Nat.lt_succ_self k)]
    exact h.exists_token.1

end

/-- The least value that does not fit is lost under every limit. -/
theorem deliversNumber_of_least_lost (options : Options) :
    DeliversNumber options "9223372036854775808" 0 "9223372036854775808" 9223372036854775807 := by
  refine ⟨.number "9223372036854775808", ?_, rfl, by decide +kernel⟩
  rw [Generate.State.input_pulled]
  show (scan "9223372036854775808").tokens.head?.map Token.lexeme = _
  decide +kernel

/-- **When no value is lost without a report.** A number is reported if it has more digits than
the limit allows, whatever its value is. So every number that does not have the value of its
digits is reported exactly if the limit is below 19. -/
theorem scan_reports_lost_values_iff (options : Options) :
    (∀ source k digits n, DeliversNumber options source k digits n →
      n = min (Decimal.value digits.toList) 9223372036854775807 ∧
      (ReportsTooLong options source k digits ↔ options.maxDigits.toNat < digits.length)) ∧
    ((∀ source k digits n, DeliversNumber options source k digits n →
        n ≠ Decimal.value digits.toList → ReportsTooLong options source k digits) ↔
      options.maxDigits.toNat < 19) := by
  refine ⟨fun source k digits n h => ⟨?_, h.reportsTooLong_iff⟩, ?_, ?_⟩
  · rw [h.exists_token.2, Decimal.literal_eq_min]
    rfl
  · -- A limit of 19 or more lets the least value through that is lost.
    intro hreported
    have hleast := deliversNumber_of_least_lost options
    exact hleast.reportsTooLong_iff.mp (hreported _ _ _ _ hleast (by decide +kernel))
  · intro hlimit source k digits n h hlost
    rw [h.exists_token.2] at hlost
    -- A value is lost from 19 digits on, so the limit is exceeded.
    have hlength := Decimal.length_of_literal_ne_value h.isDigit hlost
    rw [String.length_toList] at hlength
    exact h.reportsTooLong_iff.mpr (Nat.lt_of_lt_of_le hlimit hlength)

/-- Under the limit 18 the loss of the value behind `x :=` is reported. -/
theorem scan_reports_lost_values_eighteen :
    DeliversNumber { maxDigits := 18 } "x := 9223372036854775808" 2 "9223372036854775808"
      9223372036854775807 ∧
    ReportsTooLong { maxDigits := 18 } "x := 9223372036854775808" 2 "9223372036854775808" := by
  have hdelivers : DeliversNumber { maxDigits := 18 } "x := 9223372036854775808" 2
      "9223372036854775808" 9223372036854775807 :=
    ⟨.number "9223372036854775808", by decide +kernel, rfl, by decide +kernel⟩
  refine ⟨hdelivers, (scan_reports_lost_values_iff { maxDigits := 18 }).2.mpr (by decide) _ _ _ _
    hdelivers (by decide +kernel)⟩

/-- Under the limit 19 a number is altered, and nothing is reported about the whole source. -/
theorem scan_loses_value_silently :
    (DeliversNumber { maxDigits := 19 } "9223372036854775808" 0 "9223372036854775808"
      9223372036854775807 ∧
    9223372036854775807 ≠ Decimal.value "9223372036854775808".toList ∧
    ¬ ReportsTooLong { maxDigits := 19 } "9223372036854775808" 0 "9223372036854775808") ∧
    (scan "9223372036854775808").overlong 19 = [] := by
  refine ⟨⟨deliversNumber_of_least_lost _, by decide +kernel, ?_⟩, by decide +kernel⟩
  intro hreported
  exact absurd ((deliversNumber_of_least_lost _).reportsTooLong_iff.mp hreported) (by decide)

end ThreeAddress
