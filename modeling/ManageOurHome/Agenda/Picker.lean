import Mathlib.Data.List.Destutter
import ManageOurHome.Agenda.Split
import ManageOurHome.HttpGuard.Origin
import ManageOurHome.Recipes.PlainText
import ManageOurHome.Stocks.Gs1

/-! @src apps/shared/src/validation/agenda.rs | layer:model | family:recurrence

    The rules the recurrence picker writes. A slice of RFC 5545, one text for each choice: the parts that say nothing
    are left out, the weekdays come from Monday on.

        weekly, every 2, WE MO, until D ──▶ FREQ=WEEKLY;INTERVAL=2;BYDAY=MO,WE;UNTIL=<D>T235959Z -/

namespace Home.Agenda

/-- The frequencies the picker exposes. -/
inductive Freq where
  | Daily | Weekly | Monthly | Yearly
  deriving DecidableEq

inductive Weekday where
  | Mon | Tue | Wed | Thu | Fri | Sat | Sun
  deriving DecidableEq

/-- How a recurrence stops. -/
inductive RecurrenceEnd where
  | Never
  | Count (n : ℕ)
  | Until (d : ℤ)
  deriving DecidableEq

structure Recurrence where
  freq : Freq
  interval : ℕ
  byday : List Weekday
  end_ : RecurrenceEnd
  deriving DecidableEq

/-- Monday to Sunday. -/
def WEEKDAYS : List Weekday := [.Mon, .Tue, .Wed, .Thu, .Fri, .Sat, .Sun]

def weekdayToken : Weekday → Text
  | .Mon => "MO".toList
  | .Tue => "TU".toList
  | .Wed => "WE".toList
  | .Thu => "TH".toList
  | .Fri => "FR".toList
  | .Sat => "SA".toList
  | .Sun => "SU".toList

def freqToken : Freq → Text
  | .Daily => "DAILY".toList
  | .Weekly => "WEEKLY".toList
  | .Monthly => "MONTHLY".toList
  | .Yearly => "YEARLY".toList

/-- The part that ends a rule, if it has one. -/
def endPart (format : Format) : RecurrenceEnd → List Text
  | .Never => []
  | .Count n => ["COUNT=".toList ++ (Nat.repr n).toList]
  | .Until d => ["UNTIL=".toList ++ format.date d ++ "T235959Z".toList]

/-- The parts of a rule that say how it steps. -/
def stepParts (r : Recurrence) : List Text :=
  let parts := ["FREQ=".toList ++ freqToken r.freq]
  let parts := if 1 < r.interval then parts ++ ["INTERVAL=".toList ++ (Nat.repr r.interval).toList] else parts
  if r.freq = .Weekly ∧ r.byday ≠ [] then
    let days := r.byday.mergeSort fun a b => WEEKDAYS.idxOf a ≤ WEEKDAYS.idxOf b
    let days := days.destutter (· ≠ ·)
    parts ++ ["BYDAY=".toList ++ List.intercalate [','] (days.map weekdayToken)]
  else parts

/-- The rule's text for a picker's choice. -/
def buildRrule (format : Format) (r : Recurrence) : Text :=
  List.intercalate [';'] (stepParts r ++ endPart format r.end_)

variable {format : Format}

theorem stepParts_ne_nil (r : Recurrence) : stepParts r ≠ [] := by
  simp only [stepParts]
  split_ifs <;> simp

theorem intercalate_concat (sep : Text) {parts : List Text} (h : parts ≠ []) (last : Text) :
    List.intercalate sep (parts ++ [last]) = List.intercalate sep parts ++ sep ++ last := by
  induction parts with
  | nil => exact absurd rfl h
  | cons part parts ih =>
    cases parts with
    | nil => simp
    | cons next parts =>
      have htail := ih (List.cons_ne_nil next parts)
      rw [List.cons_append] at htail
      rw [List.cons_append, List.cons_append, List.intercalate_cons_cons, List.intercalate_cons_cons, htail]
      simp only [List.append_assoc]

/-- What ends a rule comes after all that it says without an end. -/
theorem buildRrule_until (r : Recurrence) (d : ℤ) : buildRrule format { r with end_ := .Until d } =
    buildRrule format { r with end_ := .Never } ++ [';'] ++ ("UNTIL=".toList ++ format.date d ++ "T235959Z".toList) := by
  have hnever : buildRrule format { r with end_ := .Never } = List.intercalate [';'] (stepParts r) := by
    rw [buildRrule, endPart, List.append_nil]
    rfl
  rw [hnever, ← intercalate_concat [';'] (stepParts_ne_nil r)]
  rfl

/-! ### A rule read back -/

def weekdayFromToken (tok : Text) : Option Weekday := WEEKDAYS.find? fun w => weekdayToken w = tok

def freqFromToken (tok : Text) : Option Freq := [Freq.Daily, .Weekly, .Monthly, .Yearly].find? fun f => freqToken f = tok

/-- `str::to_ascii_uppercase`. -/
def asciiUppercase (s : Text) : Text := s.map Char.toUpper

/-- What the parts of a rule have said so far. -/
structure RuleRead where
  freq : Option Freq
  interval : ℕ
  byday : List Weekday
  count : Option ℕ
  until_ : Option ℤ

def RuleRead.default : RuleRead := ⟨none, 1, [], none, none⟩

/-- One part; what the picker does not show is refused. `readDate` is chrono's reading of `%Y%m%d`. -/
def RuleRead.part (readDate : Text → Option ℤ) (read : RuleRead) (pair : Text) : Option RuleRead := do
  let (key, value) ← HttpGuard.splitOnce ['='] pair
  let key := asciiUppercase key
  if key = "FREQ".toList then
    let freq ← freqFromToken (asciiUppercase value)
    some { read with freq := some freq }
  else if key = "INTERVAL".toList then
    let n ← Recipes.parseU32 10 value
    if n < 1 then none else some { read with interval := n }
  else if key = "BYDAY".toList then
    let days ← (value.splitOn ',').mapM fun tok => weekdayFromToken (asciiUppercase tok)
    some { read with byday := read.byday ++ days }
  else if key = "COUNT".toList then
    let n ← Recipes.parseU32 10 value
    some { read with count := some n }
  else if key = "UNTIL".toList then
    let (datePart, _) ← Stocks.splitAtByte 8 value
    let d ← readDate datePart
    some { read with until_ := some d }
  else none

/-- The picker's choice a rule's text says, if it is one. -/
def parseRrule (readDate : Text → Option ℤ) (rrule : Text) : Option Recurrence := do
  let read ← ((rrule.splitOn ';').filter (!·.isEmpty)).foldlM (RuleRead.part readDate) RuleRead.default
  let freq ← read.freq
  if read.byday ≠ [] ∧ freq ≠ .Weekly then none
  else match read.count, read.until_ with
    | some _, some _ => none
    | some n, none => some ⟨freq, read.interval, read.byday, .Count n⟩
    | none, some d => some ⟨freq, read.interval, read.byday, .Until d⟩
    | none, none => some ⟨freq, read.interval, read.byday, .Never⟩

end Home.Agenda
