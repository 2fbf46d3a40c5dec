import Mathlib.Data.List.Induction
import ThreeAddress.CommandLine.Invocation

/-!
# The language of the arguments

The arguments of the command are *items* written one after the other: the flag that asks for
the names, a flag with its number, or the path of the source. An item may take two arguments,
and the second may look like any other argument, so what is accepted depends on how the whole
list is grouped from the left.

* `IsNumeral` is the form of a number, and `Fails` says which character decides that a text
  has not this form, and how.
* `Item` is what the arguments consist of, and `Offends` says what is wrong with the first
  arguments that are no item.
* `arguments_cases`: every list of arguments is a sequence of items, with nothing or an
  offence behind it.
* `Asks` says what a sequence of items asks for: of each flag the last value counts.
* `parse_outcome` says what is read from every list of arguments.
-/

set_option autoImplicit false

namespace ThreeAddress.CommandLine

/-! ### Numbers -/

/-- The digits of a number: what stands behind the sign, if there is one. -/
def digitsOf : List Char → List Char
  | '+' :: digits => digits
  | digits => digits

/-- An optional plus sign and one or more digits, whose value is a word. -/
structure IsNumeral (text : String) : Prop where
  ne_nil : digitsOf text.toList ≠ []
  digits : ∀ c ∈ digitsOf text.toList, c.isDigit = true
  fits : Decimal.value (digitsOf text.toList) ≤ maxWord

/-- The word that a number stands for. -/
def numeralValue (text : String) : UInt64 :=
  UInt64.ofNat (Decimal.value (digitsOf text.toList))

/-- Why a text is no number. Behind the sign the digits `front` are read, whose value is a
word, and the next character is no digit or makes the value too large. -/
inductive Fails (text : String) : NumeralError → Prop where
  | empty (h : text.toList = []) : Fails text .empty
  | signAlone (h : text.toList = ['+']) : Fails text .invalidDigit
  | invalidDigit (front : List Char) (c : Char) (rest : List Char)
      (hsplit : digitsOf text.toList = front ++ c :: rest)
      (hfront : ∀ d ∈ front, d.isDigit = true) (hfits : Decimal.value front ≤ maxWord)
      (hc : c.isDigit = false) : Fails text .invalidDigit
  | tooLarge (front : List Char) (c : Char) (rest : List Char)
      (hsplit : digitsOf text.toList = front ++ c :: rest)
      (hfront : ∀ d ∈ front, d.isDigit = true) (hfits : Decimal.value front ≤ maxWord)
      (hc : c.isDigit = true) (hlarge : maxWord < Decimal.value (front ++ [c])) :
      Fails text .tooLarge

/-- Digits are read as long as their value is a word. -/
theorem readDigits_append {front : List Char} (hfront : ∀ d ∈ front, d.isDigit = true)
    (hfits : Decimal.value front ≤ maxWord) (rest : List Char) :
    readDigits 0 (front ++ rest) = readDigits (Decimal.value front) rest := by
  induction front using List.reverseRecOn generalizing rest with
  | nil => rfl
  | append_singleton front c ih =>
      rw [List.forall_mem_append, List.forall_mem_singleton] at hfront
      rw [Decimal.value_append_singleton] at hfits ⊢
      rw [List.append_assoc, ih hfront.1 (by omega), List.singleton_append, readDigits,
        if_pos hfront.2, if_pos hfits]

/-- Characters are digits whose value is a word, or there is a first one that is not accepted. -/
theorem digits_or_stops (cs : List Char) :
    ((∀ c ∈ cs, c.isDigit = true) ∧ Decimal.value cs ≤ maxWord) ∨
      ∃ front c rest, cs = front ++ c :: rest ∧ (∀ d ∈ front, d.isDigit = true) ∧
        Decimal.value front ≤ maxWord ∧
          (c.isDigit = false ∨ c.isDigit = true ∧ maxWord < Decimal.value (front ++ [c])) := by
  induction cs using List.reverseRecOn with
  | nil => exact .inl ⟨fun _ hmem => absurd hmem List.not_mem_nil, Nat.zero_le _⟩
  | append_singleton init last ih =>
      rcases ih with ⟨hdigits, hfits⟩ | ⟨front, c, rest, rfl, hstop⟩
      · cases hlast : last.isDigit with
        | false => exact .inr ⟨init, last, [], rfl, hdigits, hfits, .inl hlast⟩
        | true =>
            rcases Nat.lt_or_ge maxWord (Decimal.value (init ++ [last])) with hlarge | hsmall
            · exact .inr ⟨init, last, [], rfl, hdigits, hfits, .inr ⟨hlast, hlarge⟩⟩
            · exact .inl ⟨List.forall_mem_append.mpr
                ⟨hdigits, List.forall_mem_singleton.mpr hlast⟩, hsmall⟩
      · -- What stops the reading first does so whatever follows it.
        refine .inr ⟨front, c, rest ++ [last], ?_, hstop⟩
        rw [List.append_assoc, List.cons_append]

/-- A text with digits behind its sign is read from the first of them. -/
theorem readNumeral_eq {cs : List Char} (h : digitsOf cs ≠ []) :
    readNumeral cs = readDigits 0 (digitsOf cs) := by
  unfold readNumeral
  split
  · exact absurd rfl h
  · exact absurd rfl h
  · rfl
  · next hempty hsign hplus =>
    unfold digitsOf
    split
    · next digits => exact absurd rfl (hplus digits)
    · rfl

/-- A number is read as its value. -/
theorem IsNumeral.readWord {text : String} (h : IsNumeral text) :
    readWord text = .ok (numeralValue text) := by
  have hread := readDigits_append h.digits h.fits []
  rw [List.append_nil] at hread
  unfold CommandLine.readWord
  rw [readNumeral_eq h.ne_nil, hread]
  rfl

/-- A text that is no number is refused, and the fault says why. -/
theorem Fails.readWord {text : String} {reason : NumeralError} (h : Fails text reason) :
    readWord text = .error reason := by
  unfold CommandLine.readWord
  cases h with
  | empty h =>
      rw [h]
      rfl
  | signAlone h =>
      rw [h]
      rfl
  | invalidDigit front c rest hsplit hfront hfits hc =>
      rw [readNumeral_eq (by rw [hsplit]; simp), hsplit, readDigits_append hfront hfits,
        readDigits, if_neg (ne_true_of_eq_false hc)]
      rfl
  | tooLarge front c rest hsplit hfront hfits hc hlarge =>
      rw [Decimal.value_append_singleton] at hlarge
      rw [readNumeral_eq (by rw [hsplit]; simp), hsplit, readDigits_append hfront hfits,
        readDigits, if_pos hc, if_neg (Nat.not_le.mpr hlarge)]
      rfl

/-- Every text is a number, or there is a reason why it is not. -/
theorem isNumeral_or_fails (text : String) : IsNumeral text ∨ ∃ reason, Fails text reason := by
  by_cases hnil : digitsOf text.toList = []
  · unfold digitsOf at hnil
    split at hnil
    · next digits hplus =>
      rw [hnil] at hplus
      exact .inr ⟨_, .signAlone hplus⟩
    · exact .inr ⟨_, .empty hnil⟩
  · rcases digits_or_stops (digitsOf text.toList) with
      ⟨hdigits, hfits⟩ | ⟨front, c, rest, hsplit, hfront, hfits, hc | ⟨hc, hlarge⟩⟩
    · exact .inl ⟨hnil, hdigits, hfits⟩
    · exact .inr ⟨_, .invalidDigit front c rest hsplit hfront hfits hc⟩
    · exact .inr ⟨_, .tooLarge front c rest hsplit hfront hfits hc hlarge⟩

/-! ### Items -/

namespace Setting

/-- The value of a setting. -/
def get (setting : Setting) (options : Options) : UInt64 :=
  match setting with
  | firstAddress => options.firstAddress
  | firstTemp => options.firstTemp
  | maxDigits => options.maxDigits
  | maxDepth => options.maxDepth

/-- An update is seen in its own setting and in no other. -/
theorem get_update (setting other : Setting) (value : UInt64) (options : Options) :
    other.get (setting.update value options)
      = if setting = other then value else other.get options := by
  cases setting <;> cases other <;> rfl

/-- Options are known by their settings. -/
theorem ext_get {options options' : Options}
    (h : ∀ setting : Setting, setting.get options = setting.get options') : options = options' := by
  obtain ⟨address, temp, digits, depth⟩ := options
  obtain ⟨address', temp', digits', depth'⟩ := options'
  obtain rfl : address = address' := h firstAddress
  obtain rfl : temp = temp' := h firstTemp
  obtain rfl : digits = digits' := h maxDigits
  obtain rfl : depth = depth' := h maxDepth
  rfl

/-- The flag of a setting is read as that setting. -/
theorem ofFlag?_flag (setting : Setting) : ofFlag? setting.flag = some setting := by
  cases setting <;> decide

/-- A setting is read from no other flag than its own. -/
theorem flag_of_ofFlag? {arg : String} {setting : Setting} (h : ofFlag? arg = some setting) :
    setting.flag = arg := by
  unfold ofFlag? at h
  have hfound := List.find?_some h
  exact of_decide_eq_true hfound

/-- The flags of the settings have the form of an option. -/
theorem isOption_flag (setting : Setting) : isOption setting.flag = true := by
  cases setting <;> decide

/-- No setting has the flag that asks for the symbols. -/
theorem flag_ne_symbols (setting : Setting) : setting.flag ≠ "--symbols" := by
  cases setting <;> decide

end Setting

/-- One or two arguments that belong together. -/
inductive Item where
  /-- The flag that asks for the names. -/
  | symbols
  /-- The flag of a setting and the text of its number. -/
  | number (setting : Setting) (value : String)
  /-- The path of the source. -/
  | file (path : String)
deriving DecidableEq, Repr

namespace Item

/-- An item as it is written. -/
def args : Item → List String
  | symbols => ["--symbols"]
  | number setting value => [setting.flag, value]
  | file path => [path]

/-- Whether the arguments of an item are accepted: a value is a number, and a path does not
start with two dashes. -/
def IsValid : Item → Prop
  | symbols => True
  | number _ value => IsNumeral value
  | file path => ¬ ['-', '-'] <+: path.toList

/-- The path in an item. -/
def path? : Item → Option String
  | symbols => none
  | number _ _ => none
  | file path => some path

/-- The text of the number that an item gives to a setting. -/
def valueFor? (setting : Setting) : Item → Option String
  | symbols => none
  | number other value => if other = setting then some value else none
  | file _ => none

/-- What is asked for with one more item. -/
def addTo (draft : Draft) : Item → Draft
  | symbols => { draft with symbols := true }
  | number setting value =>
    { draft with options := setting.update (numeralValue value) draft.options }
  | file path => { draft with path? := some path }

end Item

/-- Items that are accepted one by one, with at most one path. -/
structure Accepted (items : List Item) : Prop where
  valid : ∀ item ∈ items, item.IsValid
  onePath : (items.filterMap Item.path?).length ≤ 1

/-- What is wrong with arguments that follow `items`. -/
inductive Offends (items : List Item) : List String → UsageError → Prop where
  | needsValue (setting : Setting) : Offends items [setting.flag] (.needsValue setting.flag)
  | invalidValue (setting : Setting) (value : String) (rest : List String)
      (reason : NumeralError) (h : Fails value reason) :
      Offends items (setting.flag :: value :: rest) (.invalidValue setting.flag value reason)
  | unknownOption (arg : String) (rest : List String) (h : ['-', '-'] <+: arg.toList)
      (hsymbols : arg ≠ "--symbols") (hflag : ∀ setting : Setting, arg ≠ setting.flag) :
      Offends items (arg :: rest) (.unknownOption arg)
  | unexpectedArgument (arg : String) (rest : List String) (h : ¬ ['-', '-'] <+: arg.toList)
      (hpath : items.filterMap Item.path? ≠ []) :
      Offends items (arg :: rest) (.unexpectedArgument arg)

/-- What a sequence of items asks for. -/
structure Asks (items : List Item) (invocation : Invocation) : Prop where
  path : items.filterMap Item.path? = [invocation.path]
  symbols : invocation.symbols = true ↔ Item.symbols ∈ items
  /-- The last value of a setting counts. One that is not given has its usual value. -/
  options : ∀ setting : Setting, setting.get invocation.options
    = ((items.filterMap (Item.valueFor? setting)).getLast?.map numeralValue).getD
        (setting.get {})

/-! ### Reading items -/

/-- An argument has the form of an option exactly if it starts with two dashes. -/
theorem isOption_iff (arg : String) : isOption arg = true ↔ ['-', '-'] <+: arg.toList := by
  unfold isOption
  split
  · next rest hdashes =>
    rw [hdashes]
    exact iff_of_true rfl ⟨rest, rfl⟩
  · next hnot =>
    refine iff_of_false Bool.false_ne_true ?_
    rintro ⟨rest, hdashes⟩
    exact hnot rest hdashes.symm

/-- A path is no flag. -/
theorem ofFlag?_of_not_option {arg : String} (h : isOption arg = false) :
    arg ≠ "--symbols" ∧ Setting.ofFlag? arg = none := by
  constructor
  · rintro rfl
    exact absurd h (by decide)
  · cases hflag : Setting.ofFlag? arg with
    | none => rfl
    | some setting =>
        rw [← Setting.flag_of_ofFlag? hflag, Setting.isOption_flag] at h
        exact nomatch h

/-- An item in front is read, unless it is a second path. -/
theorem readArguments_item {item : Item} (hvalid : item.IsValid) {draft : Draft}
    (hpath : draft.path? = none ∨ item.path? = none) (rest : List String) :
    readArguments draft (item.args ++ rest) = readArguments (item.addTo draft) rest := by
  cases item with
  | symbols =>
      show readArguments draft ("--symbols" :: rest) = _
      rw [readArguments.eq_def]
      rfl
  | number setting value =>
      have hread : readWord value = .ok (numeralValue value) := IsNumeral.readWord hvalid
      show readArguments draft (setting.flag :: value :: rest) = _
      rw [readArguments.eq_def]
      simp only [setting.flag_ne_symbols, if_false, setting.ofFlag?_flag, hread, Item.addTo]
  | file path =>
      have hoption : isOption path = false :=
        eq_false_of_ne_true (mt (isOption_iff path).mp hvalid)
      obtain ⟨hsymbols, hflag⟩ := ofFlag?_of_not_option hoption
      have hfree : draft.path? = none := hpath.resolve_right (Option.some_ne_none path)
      show readArguments draft (path :: rest) = _
      rw [readArguments.eq_def]
      simp only [hsymbols, if_false, hflag, hoption, Bool.false_eq_true, hfree, Item.addTo]

/-- What a sequence of items asks for, as it is collected. -/
def draftOf (items : List Item) : Draft := items.foldl Item.addTo {}

/-- The last item is added to what the items before it ask for. -/
theorem draftOf_append_singleton (items : List Item) (item : Item) :
    draftOf (items ++ [item]) = item.addTo (draftOf items) := by
  unfold draftOf
  rw [List.foldl_append]
  rfl

/-- What is collected from a sequence of items: the last path, whether the names are asked
for, and of each setting the last value. -/
theorem draftOf_spec (items : List Item) :
    (draftOf items).path? = (items.filterMap Item.path?).getLast? ∧
      ((draftOf items).symbols = true ↔ Item.symbols ∈ items) ∧
      ∀ setting : Setting, setting.get (draftOf items).options
        = ((items.filterMap (Item.valueFor? setting)).getLast?.map numeralValue).getD
            (setting.get {}) := by
  induction items using List.reverseRecOn with
  | nil => exact ⟨rfl, by simp [draftOf], fun _ => rfl⟩
  | append_singleton items item ih =>
      obtain ⟨hpath, hsymbols, hoptions⟩ := ih
      rw [draftOf_append_singleton]
      -- An item adds to one part of the draft, and the others are as they were.
      cases item with
      | symbols =>
          simp only [Item.addTo, Item.path?, Item.valueFor?, List.filterMap_append,
            List.filterMap_cons, List.filterMap_nil, List.append_nil]
          exact ⟨hpath, by simp, hoptions⟩
      | file path =>
          simp only [Item.addTo, Item.path?, Item.valueFor?, List.filterMap_append,
            List.filterMap_cons, List.filterMap_nil, List.append_nil]
          exact ⟨List.getLast?_concat.symm, by simpa using hsymbols, hoptions⟩
      | number other value =>
          simp only [Item.addTo, Item.path?, Item.valueFor?, List.filterMap_append,
            List.filterMap_cons, List.filterMap_nil, List.append_nil, Setting.get_update]
          refine ⟨hpath, by simpa using hsymbols, fun setting => ?_⟩
          by_cases hsame : other = setting
          · simp only [hsame, if_true, List.getLast?_concat, Option.map_some, Option.getD_some]
          · simpa only [hsame, if_false, List.append_nil] using hoptions setting

namespace Accepted
variable {items : List Item} {item : Item}

/-- No items are accepted. -/
theorem nil : Accepted [] := ⟨fun _ hmem => absurd hmem List.not_mem_nil, Nat.zero_le _⟩

/-- One more item is accepted unless it is a second path. -/
theorem append_singleton_iff :
    Accepted (items ++ [item]) ↔
      Accepted items ∧ item.IsValid ∧ (items.filterMap Item.path? = [] ∨ item.path? = none) := by
  -- Each item is valid for itself. Only the paths are counted over all items.
  have hcount : ((items ++ [item]).filterMap Item.path?).length ≤ 1 ↔
      (items.filterMap Item.path?).length ≤ 1 ∧
        (items.filterMap Item.path? = [] ∨ item.path? = none) := by
    rw [List.filterMap_append, List.length_append, ← List.length_eq_zero_iff]
    cases hpath : item.path? with
    | none => simp [hpath]
    | some path =>
        simp only [List.filterMap_cons, hpath, List.filterMap_nil, List.length_singleton,
          reduceCtorEq, or_false]
        omega
  constructor
  · rintro ⟨hvalid, hpath⟩
    rw [List.forall_mem_append, List.forall_mem_singleton] at hvalid
    obtain ⟨hone, hfree⟩ := hcount.mp hpath
    exact ⟨⟨hvalid.1, hone⟩, hvalid.2, hfree⟩
  · rintro ⟨⟨hvalid, hone⟩, hitem, hfree⟩
    exact ⟨List.forall_mem_append.mpr ⟨hvalid, List.forall_mem_singleton.mpr hitem⟩,
      hcount.mpr ⟨hone, hfree⟩⟩

/-- Items that are accepted are collected. -/
theorem readArguments (h : Accepted items) (rest : List String) :
    readArguments {} (items.flatMap Item.args ++ rest) = readArguments (draftOf items) rest := by
  induction items using List.reverseRecOn generalizing rest with
  | nil => rfl
  | append_singleton items item ih =>
      obtain ⟨hitems, hitem, hfree⟩ := append_singleton_iff.mp h
      have hpath : (draftOf items).path? = none ∨ item.path? = none := by
        refine hfree.imp_left fun hnone => ?_
        rw [(draftOf_spec items).1, hnone]
        rfl
      rw [List.flatMap_append, List.flatMap_singleton, List.append_assoc, ih hitems,
        readArguments_item hitem hpath, draftOf_append_singleton]

end Accepted

/-- What is wrong with the next arguments is reported. -/
theorem Offends.readArguments {items : List Item} {rest : List String} {error : UsageError}
    (h : Offends items rest error) : readArguments (draftOf items) rest = .error error := by
  rw [readArguments.eq_def]
  cases h with
  | needsValue setting =>
      simp only [setting.flag_ne_symbols, if_false, setting.ofFlag?_flag]
  | invalidValue setting value rest reason hfails =>
      simp only [setting.flag_ne_symbols, if_false, setting.ofFlag?_flag, hfails.readWord]
  | unknownOption arg rest hdashes hsymbols hflag =>
      have hnone : Setting.ofFlag? arg = none := by
        cases hfound : Setting.ofFlag? arg with
        | none => rfl
        | some setting => exact absurd (Setting.flag_of_ofFlag? hfound).symm (hflag setting)
      simp only [hsymbols, if_false, hnone, (isOption_iff arg).mpr hdashes, if_true]
  | unexpectedArgument arg rest hdashes hpath =>
      have hoption : isOption arg = false := eq_false_of_ne_true (mt (isOption_iff arg).mp hdashes)
      obtain ⟨hsymbols, hflag⟩ := ofFlag?_of_not_option hoption
      obtain ⟨path, htaken⟩ := Option.ne_none_iff_exists'.mp (mt List.getLast?_eq_none_iff.mp hpath)
      rw [← (draftOf_spec items).1] at htaken
      simp only [hsymbols, if_false, hflag, hoption, Bool.false_eq_true, htaken]

/-! ### Every list of arguments -/

/-- Behind `items` stand more items that are accepted, and then nothing or an offence. -/
def Splits (items : List Item) (rest : List String) : Prop :=
  ∃ more left, rest = more.flatMap Item.args ++ left ∧ Accepted (items ++ more) ∧
    (left = [] ∨ ∃ error, Offends (items ++ more) left error)

section
variable {items : List Item} (h : Accepted items) {rest : List String}
include h

/-- Nothing or an offence stands right behind the items. -/
theorem splits_of_stop (hstop : rest = [] ∨ ∃ error, Offends items rest error) :
    Splits items rest :=
  ⟨[], rest, rfl, by rwa [List.append_nil], by rwa [List.append_nil]⟩

/-- One more item stands behind the items. -/
theorem splits_of_item (item : Item)
    (hsplits : Accepted (items ++ [item]) → Splits (items ++ [item]) rest)
    (hvalid : item.IsValid) (hfree : items.filterMap Item.path? = [] ∨ item.path? = none) :
    Splits items (item.args ++ rest) := by
  obtain ⟨more, left, rfl, haccepted, hleft⟩ :=
    hsplits (Accepted.append_singleton_iff.mpr ⟨h, hvalid, hfree⟩)
  rw [List.append_assoc, List.singleton_append] at haccepted hleft
  exact ⟨item :: more, left, by rw [List.flatMap_cons, List.append_assoc], haccepted, hleft⟩

/-- All arguments behind accepted items split. The induction is on their number, because an
item may take two. -/
theorem splits : Splits items rest := by
  induction hlength : rest.length using Nat.strongRecOn generalizing rest items with
  | ind length ih =>
    cases rest with
    | nil => exact splits_of_stop h (.inl rfl)
    | cons arg tail =>
        rw [List.length_cons] at hlength
        by_cases hsymbols : arg = "--symbols"
        · subst hsymbols
          exact splits_of_item h .symbols
            (fun haccepted => ih tail.length (by omega) haccepted rfl) trivial (.inr rfl)
        · cases hflag : Setting.ofFlag? arg with
          | some setting =>
              obtain rfl := Setting.flag_of_ofFlag? hflag
              cases tail with
              | nil => exact splits_of_stop h (.inr ⟨_, .needsValue setting⟩)
              | cons value tail =>
                  -- The next argument is the value, even if it looks like a flag or a path.
                  rw [List.length_cons] at hlength
                  rcases isNumeral_or_fails value with hnumeral | ⟨reason, hfails⟩
                  · exact splits_of_item h (.number setting value)
                      (fun haccepted => ih tail.length (by omega) haccepted rfl) hnumeral (.inr rfl)
                  · exact splits_of_stop h
                      (.inr ⟨_, .invalidValue setting value tail reason hfails⟩)
          | none =>
              by_cases hdashes : ['-', '-'] <+: arg.toList
              · refine splits_of_stop h (.inr ⟨_, .unknownOption arg tail hdashes hsymbols ?_⟩)
                rintro setting rfl
                rw [setting.ofFlag?_flag] at hflag
                exact nomatch hflag
              · by_cases hpath : items.filterMap Item.path? = []
                · exact splits_of_item h (.file arg)
                    (fun haccepted => ih tail.length (by omega) haccepted rfl) hdashes (.inl hpath)
                · exact splits_of_stop h (.inr ⟨_, .unexpectedArgument arg tail hdashes hpath⟩)

end

section
variable {items : List Item} (hvalid : ∀ item ∈ items, item.IsValid)
include hvalid

/-- Valid items with a path are an invocation. -/
theorem parse_of_path {path : String} (hpath : items.filterMap Item.path? = [path]) :
    Invocation.parse (items.flatMap Item.args)
      = .ok ⟨path, (draftOf items).symbols, (draftOf items).options⟩ := by
  have haccepted : Accepted items := ⟨hvalid, by rw [hpath]; exact Nat.le_refl 1⟩
  have hread := haccepted.readArguments []
  have htaken := (draftOf_spec items).1
  rw [hpath, List.getLast?_singleton] at htaken
  rw [List.append_nil, readArguments] at hread
  unfold Invocation.parse
  simp only [hread, htaken]

/-- Valid items without a path are not enough. -/
theorem parse_of_no_path (hpath : items.filterMap Item.path? = []) :
    Invocation.parse (items.flatMap Item.args) = .error .missingFile := by
  have haccepted : Accepted items := ⟨hvalid, by rw [hpath]; exact Nat.zero_le 1⟩
  have hread := haccepted.readArguments []
  have htaken := (draftOf_spec items).1
  rw [hpath, List.getLast?_nil] at htaken
  rw [List.append_nil, readArguments] at hread
  unfold Invocation.parse
  simp only [hread, htaken]

end

/-- An offence behind accepted items is reported. -/
theorem parse_of_offends {items : List Item} {rest : List String} {error : UsageError}
    (haccepted : Accepted items) (hoffends : Offends items rest error) :
    Invocation.parse (items.flatMap Item.args ++ rest) = .error error := by
  have hread := (haccepted.readArguments rest).trans hoffends.readArguments
  unfold Invocation.parse
  simp only [hread]

/-- Every list of arguments is one of three: valid items with one path, valid items with none,
or accepted items with an offence behind them. -/
theorem arguments_cases (args : List String) :
    (∃ (items : List Item) (path : String), args = items.flatMap Item.args ∧
      (∀ item ∈ items, item.IsValid) ∧ items.filterMap Item.path? = [path]) ∨
    (∃ items : List Item, args = items.flatMap Item.args ∧
      (∀ item ∈ items, item.IsValid) ∧ items.filterMap Item.path? = []) ∨
    ∃ items rest error, args = items.flatMap Item.args ++ rest ∧ Accepted items ∧
      Offends items rest error := by
  -- At the start no item is read, and the empty sequence is accepted.
  have hsplits : Splits [] args := splits .nil
  obtain ⟨items, rest, hargs, haccepted, hrest⟩ := hsplits
  simp only [List.nil_append] at haccepted hrest
  rcases hrest with rfl | ⟨error, hoffends⟩
  · rw [List.append_nil] at hargs
    have hone := haccepted.onePath
    cases hpaths : items.filterMap Item.path? with
    | nil => exact .inr (.inl ⟨items, hargs, haccepted.valid, hpaths⟩)
    | cons path more =>
        rw [hpaths, List.length_cons] at hone
        obtain rfl : more = [] := List.eq_nil_of_length_eq_zero (by omega)
        exact .inl ⟨items, path, hargs, haccepted.valid, hpaths⟩
  · exact .inr (.inr ⟨items, rest, error, hargs, haccepted, hoffends⟩)

/-- What a sequence of items asks for is what was collected from it. -/
theorem asks_iff {items : List Item} {invocation : Invocation} :
    Asks items invocation ↔ items.filterMap Item.path? = [invocation.path] ∧
      invocation = ⟨invocation.path, (draftOf items).symbols, (draftOf items).options⟩ := by
  obtain ⟨-, hsymbols, hoptions⟩ := draftOf_spec items
  constructor
  · intro h
    obtain ⟨path, symbols, options⟩ := invocation
    -- Both sides are known by what the items say, so they agree field by field.
    have hsame : symbols = (draftOf items).symbols :=
      Bool.eq_iff_iff.mpr (h.symbols.trans hsymbols.symm)
    have hsettings : options = (draftOf items).options :=
      Setting.ext_get fun setting => (h.options setting).trans (hoptions setting).symm
    exact ⟨h.path, by rw [hsame, hsettings]⟩
  · rintro ⟨hpath, hinvocation⟩
    rw [hinvocation]
    exact ⟨hpath, hsymbols, hoptions⟩

/-- An invocation is read from the items that ask for it, and from nothing else. -/
theorem parse_eq_ok_iff {args : List String} {invocation : Invocation} :
    Invocation.parse args = .ok invocation ↔
      ∃ items : List Item, args = items.flatMap Item.args ∧ (∀ item ∈ items, item.IsValid) ∧
        Asks items invocation := by
  constructor
  · intro hok
    rcases arguments_cases args with ⟨items, path, rfl, hvalid, hpath⟩ |
      ⟨items, rfl, hvalid, hpath⟩ | ⟨items, rest, error, rfl, haccepted, hoffends⟩
    · rw [parse_of_path hvalid hpath] at hok
      obtain rfl := Except.ok.inj hok
      exact ⟨items, rfl, hvalid, asks_iff.mpr ⟨hpath, rfl⟩⟩
    · rw [parse_of_no_path hvalid hpath] at hok
      exact nomatch hok
    · rw [parse_of_offends haccepted hoffends] at hok
      exact nomatch hok
  · rintro ⟨items, rfl, hvalid, hasks⟩
    obtain ⟨hpath, hinvocation⟩ := asks_iff.mp hasks
    rw [parse_of_path hvalid hpath, ← hinvocation]

/-- An error is that of the first offence, or there is none and no path. -/
theorem parse_eq_error_iff {args : List String} {error : UsageError} :
    Invocation.parse args = .error error ↔
      (∃ items rest, args = items.flatMap Item.args ++ rest ∧ Accepted items ∧
        Offends items rest error) ∨
      error = .missingFile ∧ ∃ items : List Item, args = items.flatMap Item.args ∧
        (∀ item ∈ items, item.IsValid) ∧ items.filterMap Item.path? = [] := by
  constructor
  · intro herror
    rcases arguments_cases args with ⟨items, path, rfl, hvalid, hpath⟩ |
      ⟨items, rfl, hvalid, hpath⟩ | ⟨items, rest, error', rfl, haccepted, hoffends⟩
    · rw [parse_of_path hvalid hpath] at herror
      exact nomatch herror
    · rw [parse_of_no_path hvalid hpath] at herror
      exact .inr ⟨(Except.error.inj herror).symm, items, rfl, hvalid, hpath⟩
    · rw [parse_of_offends haccepted hoffends] at herror
      obtain rfl := Except.error.inj herror
      exact .inl ⟨items, rest, rfl, haccepted, hoffends⟩
  · rintro (⟨items, rest, rfl, haccepted, hoffends⟩ | ⟨rfl, items, rfl, hvalid, hpath⟩)
    · exact parse_of_offends haccepted hoffends
    · exact parse_of_no_path hvalid hpath

/-- **What is read from a list of arguments.** An invocation is read exactly if the arguments
are items with one path among them, and it is what the items ask for. Otherwise the first
arguments from the left that are no item are reported, or the second path, and only if there
are none that the path is missing. Items may be written in any order that keeps the values of
each setting in order. -/
theorem parse_outcome (args : List String) :
    ((∃ invocation, Invocation.parse args = .ok invocation) ↔
      ∃ (items : List Item) (path : String), args = items.flatMap Item.args ∧
        (∀ item ∈ items, item.IsValid) ∧ items.filterMap Item.path? = [path]) ∧
    (∀ invocation, Invocation.parse args = .ok invocation ↔
      ∃ items : List Item, args = items.flatMap Item.args ∧ (∀ item ∈ items, item.IsValid) ∧
        Asks items invocation) ∧
    (∀ error, Invocation.parse args = .error error ↔
      (∃ items rest, args = items.flatMap Item.args ++ rest ∧ Accepted items ∧
        Offends items rest error) ∨
      error = .missingFile ∧ ∃ items : List Item, args = items.flatMap Item.args ∧
        (∀ item ∈ items, item.IsValid) ∧ items.filterMap Item.path? = []) ∧
    ∀ (items items' : List Item) (path : String), args = items.flatMap Item.args →
      (∀ item ∈ items, item.IsValid) → items.filterMap Item.path? = [path] →
      items'.Perm items →
      (∀ setting, items'.filterMap (Item.valueFor? setting)
        = items.filterMap (Item.valueFor? setting)) →
      ∃ invocation, Invocation.parse args = .ok invocation ∧
        Invocation.parse (items'.flatMap Item.args) = .ok invocation := by
  refine ⟨⟨?_, ?_⟩, fun _ => parse_eq_ok_iff, fun _ => parse_eq_error_iff, ?_⟩
  · rintro ⟨invocation, hok⟩
    obtain ⟨items, hargs, hvalid, hasks⟩ := parse_eq_ok_iff.mp hok
    exact ⟨items, invocation.path, hargs, hvalid, hasks.path⟩
  · rintro ⟨items, path, rfl, hvalid, hpath⟩
    exact ⟨_, parse_of_path hvalid hpath⟩
  · rintro items items' path rfl hvalid hpath hperm hvalues
    have hok := parse_of_path hvalid hpath
    have hasks : Asks items ⟨path, (draftOf items).symbols, (draftOf items).options⟩ :=
      asks_iff.mpr ⟨hpath, rfl⟩
    -- The other order asks for the same: one path, the same flag, and the same last values.
    refine ⟨_, hok, parse_eq_ok_iff.mpr ⟨items', rfl, ?_, ?_, ?_, ?_⟩⟩
    · exact fun item hmem => hvalid item (hperm.mem_iff.mp hmem)
    · exact List.perm_singleton.mp (hasks.path ▸ hperm.filterMap Item.path?)
    · exact hasks.symbols.trans hperm.mem_iff.symm
    · intro setting
      rw [hvalues setting]
      exact hasks.options setting

/-- A setting that is given twice, in two orders of the items, and a flag whose value is another
flag, in front of a second path. -/
theorem parse_outcome_last_value :
    (∃ invocation,
      Invocation.parse ["--max-depth", "+5", "--symbols", "a.pl0", "--max-depth", "007"]
        = .ok invocation ∧
      Invocation.parse ["a.pl0", "--max-depth", "+5", "--max-depth", "007", "--symbols"]
        = .ok invocation) ∧
    Invocation.parse ["--max-depth", "+5", "--symbols", "a.pl0", "--max-depth", "007"]
      = .ok ⟨"a.pl0", true, { maxDepth := 7 }⟩ ∧
    Invocation.parse ["a.pl0", "--first-temp", "--symbols", "b.pl0"]
      = .error (.invalidValue "--first-temp" "--symbols" .invalidDigit) := by
  have hvalid : ∀ item ∈ [Item.number .maxDepth "+5", .symbols, .file "a.pl0",
      .number .maxDepth "007"], item.IsValid := by
    simp only [List.forall_mem_cons, Item.IsValid]
    exact ⟨⟨by decide, List.all_eq_true.mp rfl, by decide⟩, trivial, by decide,
      ⟨by decide, List.all_eq_true.mp rfl, by decide⟩, fun _ hmem => absurd hmem List.not_mem_nil⟩
  -- The values for the depth keep their order, and all else is moved.
  obtain ⟨-, hok, -, horder⟩ := parse_outcome
    ["--max-depth", "+5", "--symbols", "a.pl0", "--max-depth", "007"]
  refine ⟨?_, ?_, ?_⟩
  · exact horder _ [.file "a.pl0", .number .maxDepth "+5", .number .maxDepth "007", .symbols]
      "a.pl0" rfl hvalid rfl (by decide) (fun setting => by cases setting <;> rfl)
  · exact (hok _).mpr ⟨_, rfl, hvalid, rfl, by decide, fun setting => by cases setting <;> rfl⟩
  · have herror := (parse_outcome ["a.pl0", "--first-temp", "--symbols", "b.pl0"]).2.2.1
    refine (herror _).mpr (.inl ⟨[.file "a.pl0"], _, rfl, ⟨?_, by decide⟩,
      .invalidValue .firstTemp "--symbols" ["b.pl0"] _
        (.invalidDigit [] '-' "-symbols".toList rfl (List.forall_mem_nil _) (by decide) rfl)⟩)
    exact List.forall_mem_singleton.mpr (show ¬ _ by decide)

end ThreeAddress.CommandLine
