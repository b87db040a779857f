import SteleDb.Exec.TextFold

/-!
# Instants of `AS OF`

The instant of an `AS OF`, of an end of a range and of a bound of a valid period is an expression
that is folded to a number of microseconds: `now()`, an integer, and intervals added to or taken
from these.  An interval is a text of counts and units in quotes, or a count in quotes with a unit
outside them.

What an expression means is a sum of integers without bounds.  The fields outside the quotes of an
interval must agree with the units inside.

* `resolveAsOf_ok_iff` : what is folded is the sum, and every number on the way is in range;
* `foldsExactly_iff` : folding is exact as long as the fields of no interval are ignored;
* `resolveAsOf_literal` : the literal of an instant folds to it.
-/

namespace SteleDb

namespace AsOf

/-! ### Expressions -/

/-- A literal. -/
inductive SqlValue where
  | number (digits : Bytes)
  | singleQuotedString (text : Bytes)
  /-- Any other, as it is shown. -/
  | other (shown : Bytes)
  deriving DecidableEq

/-- The arguments of a call. -/
inductive FunctionArguments where
  | none
  /-- As many as said. -/
  | list (args : ℕ)
  | subquery
  deriving DecidableEq

/-- A call of a function. -/
structure FunctionCall where
  /-- The parts of the name, those that are identifiers with their text. -/
  name : List (Option Bytes)
  /-- The arguments. -/
  args : FunctionArguments
  deriving DecidableEq

/-- What stands between two operands. -/
inductive BinaryOperator where
  | plus
  | minus
  /-- Any other, as it is shown. -/
  | other (shown : Bytes)
  deriving DecidableEq

/-- An expression. -/
inductive SqlExpr where
  | nested (inner : SqlExpr)
  | function (func : FunctionCall)
  | value (value : SqlValue)
  | binaryOp (left : SqlExpr) (op : BinaryOperator) (right : SqlExpr)
  /-- An interval, with the fields outside its quotes as they are shown. -/
  | interval (value : SqlExpr) (leadingField lastField : Option Bytes)
  /-- A column, as it is shown. -/
  | identifier (shown : Bytes)
  /-- A literal with its type in front, as it is shown. -/
  | typedString (shown : Bytes)
  /-- Any other, as it is shown. -/
  | other (shown : Bytes)
  deriving DecidableEq

/-- Why an expression is not an instant. -/
inductive AsOfError where
  | unsupported (what : Bytes)
  | badInterval (what : Bytes)
  | calendarInterval (unit : Bytes)
  | overflow
  deriving DecidableEq

/-! ### Folding -/

/-- `str::split_whitespace`, with a word that has begun; `fuel` bounds the characters. -/
def splitWords : ℕ → Bytes → Bytes → List Bytes
  | 0, word, _ => if word = [] then [] else [word]
  | _ + 1, word, [] => if word = [] then [] else [word]
  | fuel + 1, word, b :: text =>
    match whiteSpace.find? (·.isPrefixOf (b :: text)) with
    | some w => (if word = [] then [] else [word]) ++ splitWords fuel [] ((b :: text).drop w.length)
    | none => splitWords fuel (word ++ [b]) text

/-- `str::split_whitespace`. -/
def splitWhitespace (text : Bytes) : List Bytes := splitWords (text.length + 1) [] text

/-- A number that must fit. -/
def checked (x : ℤ) : Except AsOfError ℤ := if FitsI64 x then .ok x else .error .overflow

/-- `str::parse` of an `i64`. -/
def parseI64 (digits : Bytes) : Option ℤ := (parseInteger digits).filter fun n => FitsI64 n

/-- Microseconds in a unit; the unit is in lower case. -/
def unitMicrosOf (unit lower : Bytes) : Except AsOfError ℤ :=
  if lower ∈ [ascii "microsecond", ascii "microseconds", ascii "us", ascii "usec", ascii "usecs"]
  then .ok 1
  else if lower ∈ [ascii "millisecond", ascii "milliseconds", ascii "ms", ascii "msec",
    ascii "msecs"] then .ok 1000
  else if lower ∈ [ascii "second", ascii "seconds", ascii "sec", ascii "secs"] then .ok 1000000
  else if lower ∈ [ascii "minute", ascii "minutes", ascii "min", ascii "mins"] then .ok 60000000
  else if lower ∈ [ascii "hour", ascii "hours", ascii "hr", ascii "hrs"] then .ok 3600000000
  else if lower ∈ [ascii "day", ascii "days"] then .ok 86400000000
  else if lower ∈ [ascii "week", ascii "weeks"] then .ok 604800000000
  else if lower ∈ [ascii "month", ascii "months", ascii "mon", ascii "year", ascii "years",
    ascii "yr", ascii "yrs"] then .error (.calendarInterval unit)
  else .error (.badInterval (ascii "unknown interval unit `" ++ unit ++ ascii "`"))

/-- Microseconds in a unit. -/
def unitMicros (unit : Bytes) : Except AsOfError ℤ := unitMicrosOf unit (toAsciiLowercase unit)

/-- A count of a unit, in microseconds. -/
def scaled (digits unit whole : Bytes) : Except AsOfError ℤ :=
  match parseI64 digits with
  | none => .error (.badInterval whole)
  | some count => do
    let micros ← unitMicros unit
    checked (count * micros)

/-- Counts and units, added to what came before. -/
def sumPairs (whole : Bytes) (total : ℤ) : List Bytes → Except AsOfError ℤ
  | count :: unit :: rest => do
    let micros ← scaled count unit whole
    let total ← checked (total + micros)
    sumPairs whole total rest
  | _ => .ok total

/-- The microseconds of an interval's text, and of the field in front. -/
def parseInterval (text : Bytes) (leadingUnit : Option Bytes) : Except AsOfError ℤ :=
  match splitWhitespace text, leadingUnit with
  | [digits], some unit => scaled digits unit text
  | tokens, _ =>
    if tokens = [] ∨ tokens.length % 2 ≠ 0 then .error (.badInterval text)
    else sumPairs text 0 tokens

/-- An instant as an integer. -/
def integerInstant (display : SqlExpr → Bytes) : SqlValue → Except AsOfError ℤ
  | .number digits =>
    match parseI64 digits with
    | some n => .ok n
    | none =>
      if allDigits (if digits.head? = some 45 then digits.tail else digits) then .error .overflow
      else .error (.unsupported (ascii "non-integer timestamp literal `" ++ digits ++ ascii "`"))
  | v => .error (.unsupported (ascii "literal `" ++ display (.value v) ++
      ascii "` is not an instant"))

/-- The call is `now()`. -/
def isNow (func : FunctionCall) : Bool :=
  match func.name with
  | [part] =>
    (part.any fun name => toAsciiLowercase name = ascii "now") &&
      match func.args with
      | .none => true
      | .list args => args = 0
      | .subquery => false
  | _ => false

/-- The kind of an expression, for errors. -/
def describeExpr (display : SqlExpr → Bytes) : SqlExpr → Bytes
  | .identifier _ => ascii "column reference"
  | .typedString _ =>
    ascii "typed literal (e.g. TIMESTAMP '" ++ [0xE2, 0x80, 0xA6] ++ ascii "')"
  | .interval .. => ascii "bare interval (AS OF needs an instant, not a duration)"
  | .function _ => ascii "function call other than now()"
  | e => ascii "`" ++ display e ++ ascii "`"

/-- The microseconds of an operand that is an interval. -/
def intervalMicros (display : SqlExpr → Bytes) : SqlExpr → Except AsOfError ℤ
  | .interval value leadingField _ =>
    match value with
    | .value (.singleQuotedString text) => parseInterval text leadingField
    | value => .error (.badInterval (display value))
  | e => .error (.unsupported (ascii "arithmetic operand `" ++ describeExpr display e ++
      ascii "` is not an interval"))

/-- What is added for an operator and an interval. -/
def offsetOf (magnitude : ℤ) : BinaryOperator → Except AsOfError ℤ
  | .plus => .ok magnitude
  | .minus => checked (-magnitude)
  | .other shown => .error (.unsupported (ascii "operator `" ++ shown ++ ascii "`"))

/-- Fold the instant of an `AS OF`. -/
def resolveAsOf (display : SqlExpr → Bytes) (now : ℤ) : SqlExpr → Except AsOfError ℤ
  | .nested inner => resolveAsOf display now inner
  | .function func =>
    if isNow func then .ok now
    else .error (.unsupported (describeExpr display (.function func)))
  | .value v => integerInstant display v
  | .binaryOp left op right => do
    let base ← resolveAsOf display now left
    let magnitude ← intervalMicros display right
    let offset ← offsetOf magnitude op
    checked (base + offset)
  | e => .error (.unsupported (describeExpr display e))

/-- The literal of an instant. -/
def instantLiteral (micros : ℤ) : SqlExpr := .value (.number (intText micros))

/-! ### What expressions mean -/

/-- The units of fixed length. -/
inductive IntervalUnit where
  | microsecond
  | millisecond
  | second
  | minute
  | hour
  | day
  | week
  deriving DecidableEq

/-- Microseconds in a unit. -/
def IntervalUnit.micros : IntervalUnit → ℤ
  | .microsecond => 1
  | .millisecond => 10 ^ 3
  | .second => 10 ^ 6
  | .minute => 60 * 10 ^ 6
  | .hour => 60 * 60 * 10 ^ 6
  | .day => 24 * 60 * 60 * 10 ^ 6
  | .week => 7 * 24 * 60 * 60 * 10 ^ 6

/-- The words for a unit, in lower case. -/
def IntervalUnit.words : IntervalUnit → List Bytes
  | .microsecond =>
    [ascii "microsecond", ascii "microseconds", ascii "us", ascii "usec", ascii "usecs"]
  | .millisecond =>
    [ascii "millisecond", ascii "milliseconds", ascii "ms", ascii "msec", ascii "msecs"]
  | .second => [ascii "second", ascii "seconds", ascii "sec", ascii "secs"]
  | .minute => [ascii "minute", ascii "minutes", ascii "min", ascii "mins"]
  | .hour => [ascii "hour", ascii "hours", ascii "hr", ascii "hrs"]
  | .day => [ascii "day", ascii "days"]
  | .week => [ascii "week", ascii "weeks"]

/-- A word is one of a unit's, in any case. -/
def IsUnit (word : Bytes) (u : IntervalUnit) : Prop := toAsciiLowercase word ∈ u.words

instance (word : Bytes) (u : IntervalUnit) : Decidable (IsUnit word u) :=
  inferInstanceAs (Decidable (_ ∈ _))

/-- Words that are counts and units in turn. -/
inductive Counts : List Bytes → List (ℤ × IntervalUnit) → Prop
  | nil : Counts [] []
  | cons {count word : Bytes} {words : List Bytes} {n : ℤ} {u : IntervalUnit}
      {pairs : List (ℤ × IntervalUnit)} (hcount : parseInteger count = some n)
      (hunit : IsUnit word u) (hrest : Counts words pairs) :
      Counts (count :: word :: words) ((n, u) :: pairs)

/-- How an interval reads: a number with the unit in front, or counts and units in quotes. -/
inductive Reads (text : Bytes) (leading : Option Bytes) : List (ℤ × IntervalUnit) → Prop
  | unqualified {count field : Bytes} {n : ℤ} {u : IntervalUnit}
      (hwords : splitWhitespace text = [count]) (hfield : leading = some field)
      (hcount : parseInteger count = some n) (hunit : IsUnit field u) :
      Reads text leading [(n, u)]
  | quoted {pairs : List (ℤ × IntervalUnit)} (hne : pairs ≠ [])
      (hpairs : Counts (splitWhitespace text) pairs) : Reads text leading pairs

/-- The fields outside the quotes agree with what is inside: beside a single number there is one at
most, and beside units each is one of them, none of which is longer than the first field or shorter
than the last. -/
def FieldsAgree (text : Bytes) (leading last : Option Bytes) : Prop :=
  if (splitWhitespace text).length = 1 then last = none
  else
    (∀ field ∈ leading.toList ++ last.toList, ∃ u, IsUnit field u ∧
      ∃ word ∈ splitWhitespace text, IsUnit word u) ∧
    (∀ field ∈ leading, ∀ u, IsUnit field u → ∀ word ∈ splitWhitespace text, ∀ v, IsUnit word v →
      v.micros ≤ u.micros) ∧
    ∀ field ∈ last <|> leading, ∀ u, IsUnit field u → ∀ word ∈ splitWhitespace text, ∀ v,
      IsUnit word v → u.micros ≤ v.micros

/-- The fields of every interval agree. -/
def AllAgree : SqlExpr → Prop
  | .nested inner => AllAgree inner
  | .binaryOp left _ (.interval (.value (.singleQuotedString text)) leading last) =>
    AllAgree left ∧ FieldsAgree text leading last
  | _ => True

/-- The sum of an interval. -/
def total (pairs : List (ℤ × IntervalUnit)) : ℤ := (pairs.map fun p => p.1 * p.2.micros).sum

/-- The products and sums on the way to the sum of an interval. -/
def steps (acc : ℤ) : List (ℤ × IntervalUnit) → List ℤ
  | [] => []
  | p :: pairs => p.1 * p.2.micros :: (acc + p.1 * p.2.micros) ::
      steps (acc + p.1 * p.2.micros) pairs

/-- How an expression reads, whatever the fields of its intervals: the instant it means, and the
numbers on the way to it. -/
inductive Denotes (now : ℤ) : SqlExpr → ℤ → List ℤ → Prop
  | nested {e : SqlExpr} {v : ℤ} {parts : List ℤ} (h : Denotes now e v parts) :
      Denotes now (.nested e) v parts
  | now {func : FunctionCall} (h : isNow func = true) : Denotes now (.function func) now []
  | literal {digits : Bytes} {n : ℤ} (h : parseInteger digits = some n) :
      Denotes now (.value (.number digits)) n [n]
  | plus {left : SqlExpr} {text : Bytes} {leading last : Option Bytes} {v : ℤ} {parts : List ℤ}
      {pairs : List (ℤ × IntervalUnit)} (h : Denotes now left v parts)
      (hpairs : Reads text leading pairs) :
      Denotes now
        (.binaryOp left .plus (.interval (.value (.singleQuotedString text)) leading last))
        (v + total pairs) (parts ++ (steps 0 pairs ++ [v + total pairs]))
  | minus {left : SqlExpr} {text : Bytes} {leading last : Option Bytes} {v : ℤ} {parts : List ℤ}
      {pairs : List (ℤ × IntervalUnit)} (h : Denotes now left v parts)
      (hpairs : Reads text leading pairs) :
      Denotes now
        (.binaryOp left .minus (.interval (.value (.singleQuotedString text)) leading last))
        (v - total pairs) (parts ++ (steps 0 pairs ++ [-total pairs, v - total pairs]))

/-- An expression is folded exactly: what is returned is what it means, and it is refused if and
only if it means nothing or a number on the way is out of range. -/
def FoldsExactly (display : SqlExpr → Bytes) (now : ℤ) (e : SqlExpr) : Prop :=
  (∀ v, resolveAsOf display now e = .ok v → AllAgree e ∧ ∃ parts, Denotes now e v parts) ∧
    ∀ v parts, AllAgree e → Denotes now e v parts →
      ((∃ err, resolveAsOf display now e = .error err) ↔ ∃ x ∈ parts, ¬FitsI64 x)

/-! ### Units -/

/-- Every unit. -/
def units : List IntervalUnit := [.microsecond, .millisecond, .second, .minute, .hour, .day, .week]

theorem mem_units (u : IntervalUnit) : u ∈ units := by cases u <;> decide

theorem words_disjoint : ∀ u ∈ units, ∀ v ∈ units, ∀ w ∈ u.words, w ∈ v.words → u = v := by
  decide +kernel

/-- A word is of one unit at most. -/
theorem IsUnit.unique {word : Bytes} {u v : IntervalUnit} (hu : IsUnit word u)
    (hv : IsUnit word v) :
    u = v :=
  words_disjoint u (mem_units u) v (mem_units v) _ hu hv

theorem calendar_disjoint : ∀ u ∈ units, ∀ w ∈ u.words, w ∉ [ascii "month", ascii "months",
    ascii "mon", ascii "year", ascii "years", ascii "yr", ascii "yrs"] := by
  decide +kernel

theorem unitMicros_ok {word : Bytes} {m : ℤ} :
    unitMicros word = .ok m ↔ ∃ u, IsUnit word u ∧ m = u.micros := by
  constructor
  · intro h
    rw [unitMicros, unitMicrosOf] at h
    split_ifs at h with h1 h2 h3 h4 h5 h6 h7 h8
    · exact ⟨.microsecond, h1, (Except.ok.inj h).symm⟩
    · exact ⟨.millisecond, h2, (Except.ok.inj h).symm⟩
    · exact ⟨.second, h3, (Except.ok.inj h).symm⟩
    · exact ⟨.minute, h4, (Except.ok.inj h).symm⟩
    · exact ⟨.hour, h5, (Except.ok.inj h).symm⟩
    · exact ⟨.day, h6, (Except.ok.inj h).symm⟩
    · exact ⟨.week, h7, (Except.ok.inj h).symm⟩
  · rintro ⟨u, hu, rfl⟩
    rw [unitMicros, unitMicrosOf]
    split_ifs with h1 h2 h3 h4 h5 h6 h7 h8
    · rw [hu.unique (v := .microsecond) h1]
      rfl
    · rw [hu.unique (v := .millisecond) h2]
      rfl
    · rw [hu.unique (v := .second) h3]
      rfl
    · rw [hu.unique (v := .minute) h4]
      rfl
    · rw [hu.unique (v := .hour) h5]
      rfl
    · rw [hu.unique (v := .day) h6]
      rfl
    · rw [hu.unique (v := .week) h7]
      rfl
    · exact absurd h8 (calendar_disjoint u (mem_units u) _ hu)
    · -- every unit has been tried
      cases u with
      | microsecond => exact absurd hu h1
      | millisecond => exact absurd hu h2
      | second => exact absurd hu h3
      | minute => exact absurd hu h4
      | hour => exact absurd hu h5
      | day => exact absurd hu h6
      | week => exact absurd hu h7

/-- A number fits if its product with a unit does. -/
theorem fits_of_mul {n : ℤ} (u : IntervalUnit) (h : FitsI64 (n * u.micros)) : FitsI64 n := by
  cases u <;> simp only [FitsI64, i64Min, i64Max, IntervalUnit.micros] at h ⊢ <;> omega

/-! ### Intervals -/

theorem checked_ok {x y : ℤ} : checked x = .ok y ↔ FitsI64 x ∧ y = x := by
  rw [checked]
  split_ifs with h
  · exact ⟨fun hok => ⟨h, (Except.ok.inj hok).symm⟩, fun hy => by rw [hy.2]⟩
  · exact ⟨fun hok => (nomatch hok), fun hy => absurd hy.1 h⟩

theorem parseI64_eq_some {digits : Bytes} {n : ℤ} :
    parseI64 digits = some n ↔ parseInteger digits = some n ∧ FitsI64 n := by
  rw [parseI64, Option.filter_eq_some_iff, decide_eq_true_iff]

theorem bind_ok {x : Except AsOfError ℤ} {f : ℤ → Except AsOfError ℤ} {v : ℤ} :
    x >>= f = .ok v ↔ ∃ a, x = .ok a ∧ f a = .ok v := by
  cases x with
  | error e => exact ⟨fun h => (nomatch h), fun ⟨_, h, _⟩ => (nomatch h)⟩
  | ok a => exact ⟨fun h => ⟨a, rfl, h⟩, fun ⟨_, ha, h⟩ => Except.ok.inj ha ▸ h⟩

theorem scaled_ok {digits word whole : Bytes} {m : ℤ} :
    scaled digits word whole = .ok m ↔ ∃ n u, parseInteger digits = some n ∧ IsUnit word u ∧
      FitsI64 (n * u.micros) ∧ m = n * u.micros := by
  rw [scaled]
  cases hparse : parseI64 digits with
  | none =>
    refine ⟨fun h => (nomatch h), fun ⟨n, u, hn, hu, hfits, _⟩ => ?_⟩
    have hsome := parseI64_eq_some.2 ⟨hn, fits_of_mul u hfits⟩
    rw [hparse] at hsome
    cases hsome
  | some count =>
    have hcount := (parseI64_eq_some.1 hparse).1
    constructor
    · intro h
      obtain ⟨micros, hunit, hchecked⟩ := bind_ok.1 h
      obtain ⟨u, hu, rfl⟩ := unitMicros_ok.1 hunit
      obtain ⟨hfits, rfl⟩ := checked_ok.1 hchecked
      exact ⟨count, u, hcount, hu, hfits, rfl⟩
    · rintro ⟨n, u, hn, hu, hfits, rfl⟩
      obtain rfl := Option.some.inj (hcount.symm.trans hn)
      exact bind_ok.2 ⟨_, unitMicros_ok.2 ⟨u, hu, rfl⟩, checked_ok.2 ⟨hfits, rfl⟩⟩

/-- One word is no pair. -/
theorem Counts.not_single {word : Bytes} {pairs : List (ℤ × IntervalUnit)} :
    ¬Counts [word] pairs := by
  rintro ⟨⟩

theorem Counts.even {words : List Bytes} {pairs : List (ℤ × IntervalUnit)}
    (h : Counts words pairs) :
    words.length % 2 = 0 := by
  induction h with
  | nil => rfl
  | cons _ _ _ ih =>
    rw [List.length_cons, List.length_cons]
    omega

theorem Counts.ne_nil {words : List Bytes} {pairs : List (ℤ × IntervalUnit)}
    (h : Counts words pairs) : words = [] ↔ pairs = [] := by
  cases h <;> simp

theorem total_cons (p : ℤ × IntervalUnit) (pairs : List (ℤ × IntervalUnit)) :
    total (p :: pairs) = p.1 * p.2.micros + total pairs := by
  rw [total, List.map_cons, List.sum_cons]
  rfl

/-- Counts and units are summed exactly. -/
theorem sumPairs_ok {whole : Bytes} {acc m : ℤ} (words : List Bytes)
    (heven : words.length % 2 = 0) :
    sumPairs whole acc words = .ok m ↔ ∃ pairs, Counts words pairs ∧
      (∀ x ∈ steps acc pairs, FitsI64 x) ∧ m = acc + total pairs := by
  induction words using List.twoStepInduction generalizing acc with
  | nil =>
    constructor
    · intro h
      refine ⟨[], .nil, fun x hx => absurd hx List.not_mem_nil, ?_⟩
      rw [← Except.ok.inj h, total, List.map_nil, List.sum_nil, add_zero]
    · rintro ⟨pairs, hcounts, -, rfl⟩
      cases hcounts
      rw [sumPairs, total, List.map_nil, List.sum_nil, add_zero]
      rintro _ _ _ ⟨⟩
  | singleton word =>
    rw [List.length_singleton] at heven
    exact absurd heven (by decide)
  | cons_cons count word words ih _ =>
    have hrest : words.length % 2 = 0 := by
      rw [List.length_cons, List.length_cons] at heven
      omega
    rw [sumPairs]
    constructor
    · intro h
      obtain ⟨micros, hscaled, h⟩ := bind_ok.1 h
      obtain ⟨n, u, hn, hu, hfits, rfl⟩ := scaled_ok.1 hscaled
      obtain ⟨acc', hchecked, h⟩ := bind_ok.1 h
      obtain ⟨hsum, rfl⟩ := checked_ok.1 hchecked
      obtain ⟨pairs, hcounts, hsteps, rfl⟩ := (ih hrest).1 h
      refine ⟨(n, u) :: pairs, .cons hn hu hcounts, ?_, ?_⟩
      · rw [steps]
        exact List.forall_mem_cons.2 ⟨hfits, List.forall_mem_cons.2 ⟨hsum, hsteps⟩⟩
      · rw [total_cons, add_assoc]
    · rintro ⟨pairs, hcounts, hsteps, rfl⟩
      cases hcounts with
      | @cons _ _ _ n u pairs hn hu hcounts =>
        rw [steps, List.forall_mem_cons, List.forall_mem_cons] at hsteps
        obtain ⟨hfits, hsum, hsteps⟩ := hsteps
        refine bind_ok.2 ⟨_, scaled_ok.2 ⟨n, u, hn, hu, hfits, rfl⟩, ?_⟩
        refine bind_ok.2 ⟨_, checked_ok.2 ⟨hsum, rfl⟩, (ih hrest).2 ⟨pairs, hcounts, hsteps, ?_⟩⟩
        rw [total_cons, add_assoc]

/-- **An interval is summed exactly**, whatever its last field. -/
theorem parseInterval_ok {text : Bytes} {leading : Option Bytes} {m : ℤ} :
    parseInterval text leading = .ok m ↔ ∃ pairs, Reads text leading pairs ∧
      (∀ x ∈ steps 0 pairs, FitsI64 x) ∧ m = total pairs := by
  by_cases hsingle : ∃ digits field, splitWhitespace text = [digits] ∧ leading = some field
  · obtain ⟨digits, field, hwords, rfl⟩ := hsingle
    rw [parseInterval.eq_1 _ _ _ hwords]
    constructor
    · intro h
      obtain ⟨n, u, hn, hu, hfits, rfl⟩ := scaled_ok.1 h
      refine ⟨[(n, u)], .unqualified hwords rfl hn hu, ?_, ?_⟩
      · simpa [steps] using hfits
      · rw [total_cons, total, List.map_nil, List.sum_nil, add_zero]
    · rintro ⟨pairs, hreads, hsteps, rfl⟩
      cases hreads with
      | @unqualified count field' n u hwords' hfield hn hu =>
        rw [hwords] at hwords'
        cases hwords'
        cases hfield
        refine scaled_ok.2 ⟨n, u, hn, hu, hsteps _ List.mem_cons_self, ?_⟩
        rw [total_cons, total, List.map_nil, List.sum_nil, add_zero]
      | quoted hne hcounts =>
        rw [hwords] at hcounts
        exact absurd hcounts Counts.not_single
  · have hnot : ∀ digits field, splitWhitespace text = [digits] → leading = some field → False :=
      fun digits field hwords hfield => hsingle ⟨digits, field, hwords, hfield⟩
    rw [parseInterval.eq_2 _ _ hnot]
    constructor
    · intro h
      split_ifs at h with hbad
      rw [not_or, not_not] at hbad
      obtain ⟨pairs, hcounts, hsteps, rfl⟩ := (sumPairs_ok _ hbad.2).1 h
      exact ⟨pairs, .quoted (fun hnil => hbad.1 (hcounts.ne_nil.2 hnil)) hcounts, hsteps,
        zero_add _⟩
    · rintro ⟨pairs, hreads, hsteps, rfl⟩
      cases hreads with
      | unqualified hwords hfield hn hu => exact absurd hfield (hnot _ _ hwords)
      | quoted hne hcounts =>
        rw [if_neg (not_or.2 ⟨fun hnil => hne (hcounts.ne_nil.1 hnil), not_not.2 hcounts.even⟩)]
        exact (sumPairs_ok _ hcounts.even).2 ⟨pairs, hcounts, hsteps, (zero_add _).symm⟩

/-! ### Expressions -/

theorem integerInstant_ok {display : SqlExpr → Bytes} {value : SqlValue} {v : ℤ} :
    integerInstant display value = .ok v ↔
      ∃ digits, value = .number digits ∧ parseInteger digits = some v ∧ FitsI64 v := by
  cases value with
  | number digits =>
    rw [integerInstant]
    cases hparse : parseI64 digits with
    | none =>
      constructor
      · intro h
        dsimp only at h
        split_ifs at h
      · rintro ⟨_, hdigits, hv⟩
        cases hdigits
        rw [parseI64_eq_some.2 hv] at hparse
        cases hparse
    | some n =>
      constructor
      · intro h
        obtain rfl := Except.ok.inj h
        exact ⟨digits, rfl, parseI64_eq_some.1 hparse⟩
      · rintro ⟨_, hdigits, hv⟩
        cases hdigits
        rw [parseI64_eq_some.2 hv] at hparse
        rw [Option.some.inj hparse]
  | singleQuotedString text => exact ⟨fun h => (nomatch h), fun ⟨_, h, _⟩ => (nomatch h)⟩
  | other shown => exact ⟨fun h => (nomatch h), fun ⟨_, h, _⟩ => (nomatch h)⟩

theorem intervalMicros_ok {display : SqlExpr → Bytes} {e : SqlExpr} {m : ℤ} :
    intervalMicros display e = .ok m ↔ ∃ text leading last,
      e = .interval (.value (.singleQuotedString text)) leading last ∧
        parseInterval text leading = .ok m := by
  constructor
  · intro h
    cases e with
    | interval value leading last =>
      cases value with
      | value v =>
        cases v with
        | singleQuotedString text => exact ⟨text, leading, last, rfl, h⟩
        | _ => cases h
      | _ => cases h
    | _ => cases h
  · rintro ⟨text, leading, last, rfl, h⟩
    exact h

/-- **What is folded is the sum**, and every number on the way to it is in range. -/
theorem resolveAsOf_ok_iff {display : SqlExpr → Bytes} {now : ℤ} {e : SqlExpr} {v : ℤ} :
    resolveAsOf display now e = .ok v ↔
      ∃ parts, Denotes now e v parts ∧ ∀ x ∈ parts, FitsI64 x := by
  induction e generalizing v with
  | nested inner ih =>
    rw [resolveAsOf, ih]
    constructor
    · rintro ⟨parts, h, hfits⟩
      exact ⟨parts, .nested h, hfits⟩
    · rintro ⟨parts, h, hfits⟩
      cases h with
      | nested h => exact ⟨parts, h, hfits⟩
  | function func =>
    rw [resolveAsOf]
    split_ifs with hnow
    · constructor
      · intro h
        cases h
        exact ⟨[], .now hnow, fun x hx => absurd hx List.not_mem_nil⟩
      · rintro ⟨parts, h, -⟩
        cases h
        rfl
    · refine ⟨fun h => (nomatch h), fun ⟨parts, h, _⟩ => ?_⟩
      cases h with
      | now h => exact absurd h hnow
  | value value =>
    rw [resolveAsOf, integerInstant_ok]
    constructor
    · rintro ⟨digits, rfl, hv, hfits⟩
      exact ⟨[v], .literal hv, List.forall_mem_singleton.2 hfits⟩
    · rintro ⟨parts, h, hfits⟩
      cases h with
      | literal h => exact ⟨_, rfl, h, List.forall_mem_singleton.1 hfits⟩
  | binaryOp left op right ihleft ihright =>
    rw [resolveAsOf]
    constructor
    · intro h
      obtain ⟨base, hbase, h⟩ := bind_ok.1 h
      obtain ⟨magnitude, hmagnitude, h⟩ := bind_ok.1 h
      obtain ⟨offset, hoffset, h⟩ := bind_ok.1 h
      obtain ⟨hsum, rfl⟩ := checked_ok.1 h
      obtain ⟨parts, hleft, hparts⟩ := ihleft.1 hbase
      obtain ⟨text, leading, last, rfl, hinterval⟩ := intervalMicros_ok.1 hmagnitude
      obtain ⟨pairs, hreads, hsteps, rfl⟩ := parseInterval_ok.1 hinterval
      cases op with
      | plus =>
        cases hoffset
        refine ⟨_, .plus hleft hreads, List.forall_mem_append.2 ⟨hparts, ?_⟩⟩
        exact List.forall_mem_append.2 ⟨hsteps, List.forall_mem_singleton.2 hsum⟩
      | minus =>
        obtain ⟨hneg, rfl⟩ := checked_ok.1 hoffset
        refine ⟨_, .minus hleft hreads, List.forall_mem_append.2 ⟨hparts, ?_⟩⟩
        exact List.forall_mem_append.2 ⟨hsteps, List.forall_mem_cons.2
          ⟨hneg, List.forall_mem_singleton.2 hsum⟩⟩
      | other shown => cases hoffset
    · rintro ⟨parts, h, hfits⟩
      cases h with
      | @plus _ text leading last base parts pairs hleft hreads =>
        obtain ⟨hparts, hfits⟩ := List.forall_mem_append.1 hfits
        obtain ⟨hsteps, hsum⟩ := List.forall_mem_append.1 hfits
        refine bind_ok.2 ⟨base, ihleft.2 ⟨parts, hleft, hparts⟩, ?_⟩
        refine bind_ok.2 ⟨total pairs, intervalMicros_ok.2 ⟨text, leading, last, rfl, ?_⟩, ?_⟩
        · exact parseInterval_ok.2 ⟨pairs, hreads, hsteps, rfl⟩
        · exact bind_ok.2 ⟨_, rfl, checked_ok.2 ⟨List.forall_mem_singleton.1 hsum, rfl⟩⟩
      | @minus _ text leading last base parts pairs hleft hreads =>
        obtain ⟨hparts, hfits⟩ := List.forall_mem_append.1 hfits
        obtain ⟨hsteps, hsum⟩ := List.forall_mem_append.1 hfits
        rw [List.forall_mem_cons, List.forall_mem_singleton] at hsum
        refine bind_ok.2 ⟨base, ihleft.2 ⟨parts, hleft, hparts⟩, ?_⟩
        refine bind_ok.2 ⟨total pairs, intervalMicros_ok.2 ⟨text, leading, last, rfl, ?_⟩, ?_⟩
        · exact parseInterval_ok.2 ⟨pairs, hreads, hsteps, rfl⟩
        · exact bind_ok.2 ⟨-total pairs, checked_ok.2 ⟨hsum.1, rfl⟩,
            checked_ok.2 ⟨hsum.2, sub_eq_add_neg _ _⟩⟩
  | _ => exact ⟨fun h => (nomatch h), fun ⟨_, h, _⟩ => (nomatch h)⟩

/-- The literal of an instant folds to it. -/
theorem resolveAsOf_literal {display : SqlExpr → Bytes} {now micros : ℤ} (h : FitsI64 micros) :
    resolveAsOf display now (instantLiteral micros) = .ok micros :=
  resolveAsOf_ok_iff.2 ⟨[micros], .literal (parseInteger_intText micros),
    List.forall_mem_singleton.2 h⟩

/-! ### An expression means one sum -/

theorem Counts.unique {words : List Bytes} {pairs pairs' : List (ℤ × IntervalUnit)}
    (h : Counts words pairs) (h' : Counts words pairs') : pairs = pairs' := by
  induction h generalizing pairs' with
  | nil =>
    cases h'
    rfl
  | cons hn hu _ ih =>
    cases h' with
    | cons hn' hu' hrest' =>
      obtain rfl := Option.some.inj (hn.symm.trans hn')
      rw [hu.unique hu', ih hrest']

theorem Reads.unique {text : Bytes} {leading : Option Bytes}
    {pairs pairs' : List (ℤ × IntervalUnit)}
    (h : Reads text leading pairs) (h' : Reads text leading pairs') : pairs = pairs' := by
  cases h with
  | unqualified hwords hfield hn hu =>
    cases h' with
    | unqualified hwords' hfield' hn' hu' =>
      rw [hwords] at hwords'
      cases hwords'
      cases hfield.symm.trans hfield'
      obtain rfl := Option.some.inj (hn.symm.trans hn')
      rw [hu.unique hu']
    | quoted _ hcounts =>
      rw [hwords] at hcounts
      exact absurd hcounts Counts.not_single
  | quoted _ hcounts =>
    cases h' with
    | unqualified hwords =>
      rw [hwords] at hcounts
      exact absurd hcounts Counts.not_single
    | quoted _ hcounts' => exact hcounts.unique hcounts'

theorem Denotes.unique {now : ℤ} {e : SqlExpr} {v w : ℤ} {parts parts' : List ℤ}
    (h : Denotes now e v parts) (h' : Denotes now e w parts') : v = w ∧ parts = parts' := by
  induction h generalizing w parts' with
  | nested _ ih =>
    cases h' with
    | nested h' => exact ih h'
  | now _ =>
    cases h'
    exact ⟨rfl, rfl⟩
  | literal hn =>
    cases h' with
    | literal hn' =>
      obtain rfl := Option.some.inj (hn.symm.trans hn')
      exact ⟨rfl, rfl⟩
  | plus _ hreads ih =>
    cases h' with
    | plus h' hreads' =>
      obtain ⟨rfl, rfl⟩ := ih h'
      obtain rfl := hreads.unique hreads'
      exact ⟨rfl, rfl⟩
  | minus _ hreads ih =>
    cases h' with
    | minus h' hreads' =>
      obtain ⟨rfl, rfl⟩ := ih h'
      obtain rfl := hreads.unique hreads'
      exact ⟨rfl, rfl⟩

/-- **Folding is exact where no field is ignored.**  An expression is folded exactly if and only if
the fields of its intervals agree with what is in their quotes, or it would be refused without them:
it means nothing, or a number on the way is out of range.  The literal of an instant folds to it. -/
theorem foldsExactly_iff (display : SqlExpr → Bytes) (now : ℤ) (e : SqlExpr) :
    (FoldsExactly display now e ↔
      AllAgree e ∨ ∀ v parts, Denotes now e v parts → ∃ x ∈ parts, ¬FitsI64 x) ∧
    ∀ micros, FitsI64 micros →
      resolveAsOf display now (instantLiteral micros) = .ok micros := by
  refine ⟨?_, fun micros => resolveAsOf_literal⟩
  constructor
  · intro h
    by_contra hno
    push Not at hno
    obtain ⟨hagree, v, parts, hdenotes, hfits⟩ := hno
    exact hagree (h.1 v (resolveAsOf_ok_iff.2 ⟨parts, hdenotes, hfits⟩)).1
  · intro hcond
    refine ⟨fun v hok => ?_, fun v parts hagree hdenotes => ?_⟩
    · obtain ⟨parts, hdenotes, hfits⟩ := resolveAsOf_ok_iff.1 hok
      refine ⟨hcond.resolve_right fun hbad => ?_, parts, hdenotes⟩
      obtain ⟨x, hx, hnot⟩ := hbad v parts hdenotes
      exact hnot (hfits x hx)
    · cases hresult : resolveAsOf display now e with
      | ok w =>
        obtain ⟨parts', hdenotes', hfits⟩ := resolveAsOf_ok_iff.1 hresult
        obtain ⟨rfl, rfl⟩ := hdenotes.unique hdenotes'
        exact ⟨fun ⟨_, h⟩ => (nomatch h), fun ⟨x, hx, hnot⟩ => absurd (hfits x hx) hnot⟩
      | error err =>
        refine ⟨fun _ => ?_, fun _ => ⟨err, rfl⟩⟩
        by_contra hfits
        push Not at hfits
        rw [resolveAsOf_ok_iff.2 ⟨parts, hdenotes, hfits⟩] at hresult
        cases hresult

/-- An hour and a day are a day: the field beside the quotes is ignored. -/
theorem not_foldsExactly : ¬∀ (display : SqlExpr → Bytes) (now : ℤ) (e : SqlExpr),
    FoldsExactly display now e := by
  intro h
  have hok : resolveAsOf (fun _ => []) 0
      (.binaryOp (.function ⟨[some (ascii "now")], .list 0⟩) .plus
      (.interval (.value (.singleQuotedString (ascii "1 day"))) (some (ascii "HOUR")) none)) =
      .ok 86400000000 := by decide +kernel
  obtain ⟨⟨-, hagree⟩, -⟩ := (h (fun _ => []) 0 _).1 _ hok
  rw [FieldsAgree, if_neg (by decide +kernel)] at hagree
  obtain ⟨u, hu, word, hword, hunit⟩ := hagree.1 (ascii "HOUR") (by simp)
  have hnone : ∀ u ∈ units, IsUnit (ascii "HOUR") u →
      ∀ word ∈ splitWhitespace (ascii "1 day"), ¬IsUnit word u := by decide +kernel
  exact hnone u (mem_units u) hu word hword hunit

end AsOf

end SteleDb
