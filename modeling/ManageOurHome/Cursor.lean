import ManageOurHome.Lib.Query
import ManageOurHome.Text
import ManageOurHome.Time

/-! @src apps/web/src/lenient_query.rs (axum, chrono, uuid) | layer:model | family:paging

    How the instant and the id of a cursor travel in an address. What `chrono`, `uuid` and `form_urlencoded` write and
    read is a parameter; a page reads its own address leniently, the API reads its query strictly. -/

namespace Home

/-- An instant a `timestamptz` takes from the clock: whole microseconds, in the years four digits write. -/
def Stamp (t : ℤ) : Prop := t % 1000 = 0 ∧ -719528 * day ≤ t ∧ t < 2932897 * day

instance (t : ℤ) : Decidable (Stamp t) := inferInstanceAs (Decidable (_ ∧ _ ∧ _))

structure Wire (I : Type) where
  coding : Query.Coding
  /-- `to_rfc3339_opts(SecondsFormat::Micros, true)`. -/
  toRfc3339 : ℤ → Text
  /-- `format("%Y-%m-%dT%H:%M:%S%.6fZ")`. -/
  cursorInstant : ℤ → Text
  /-- `DateTime::<Utc>::from_str`. -/
  parseInstant : Text → Option ℤ
  uuidText : I → Text
  parseUuid : Text → Option I

/-- What `form_urlencoded`, `chrono` and `uuid` promise: what they write they read, with nothing in it to escape. -/
structure Wire.Lawful {I : Type} (w : Wire I) : Prop where
  coding : w.coding.Lawful
  rfc3339 : ∀ t, Stamp t → Query.Plain (w.toRfc3339 t) ∧ w.parseInstant (w.toRfc3339 t) = some t
  cursorInstant : ∀ t, Stamp t → Query.Plain (w.cursorInstant t) ∧ w.parseInstant (w.cursorInstant t) = some t
  uuid : ∀ id, Query.Plain (w.uuidText id) ∧ w.parseUuid (w.uuidText id) = some id

abbrev Pairs := List (Text × Text)

variable {I : Type} (w : Wire I)

/-- `from_query_str`: the first occurrence of each key, written again and read again. -/
def fromQueryStr (raw : Text) : Pairs :=
  Query.parse w.coding (Query.serialize w.coding (Query.firstOccurrences [] (Query.parse w.coding raw)))

variable {α : Type}

/-- `lenient`: absent, empty or unconvertible all read as none. -/
def lenient (pairs : Pairs) (key : Text) (parse : Text → Option α) : Option α := (pairs.lookup key).bind parse

/-- A field of `Query`: none when absent, refused when it does not convert or comes twice. -/
def strict (pairs : Pairs) (key : Text) (parse : Text → Option α) : Option (Option α) :=
  match pairs.filter fun p => p.1 = key with
  | [] => some none
  | [p] => (parse p.2).map some
  | _ => none

/-! ### Fields -/

variable {pairs : Pairs} {key key' value : Text} {parse : Text → Option α}

@[simp] theorem lenient_nil : lenient [] key parse = none := rfl

theorem lenient_head : lenient ((key, value) :: pairs) key parse = parse value := by
  rw [lenient, List.lookup_cons_self, Option.bind_some]

theorem lenient_tail (h : key ≠ key') : lenient ((key', value) :: pairs) key parse = lenient pairs key parse := by
  rw [lenient, List.lookup_cons, beq_false_of_ne h]
  rfl

@[simp] theorem strict_nil : strict [] key parse = some none := rfl

theorem strict_head (h : ∀ p ∈ pairs, p.1 ≠ key) : strict ((key, value) :: pairs) key parse = (parse value).map some := by
  have hrest : pairs.filter (fun p => p.1 = key) = [] := by
    rw [List.filter_eq_nil_iff]
    intro p hp
    simpa using h p hp
  rw [strict, List.filter_cons_of_pos (by simp), hrest]

theorem strict_tail (h : key' ≠ key) : strict ((key', value) :: pairs) key parse = strict pairs key parse := by
  rw [strict, List.filter_cons_of_neg (by simpa using h), strict]

variable {w}

theorem fromQueryStr_eq (hw : w.Lawful) (raw : Text) :
    fromQueryStr w raw = Query.firstOccurrences [] (Query.parse w.coding raw) :=
  Query.parse_serialize hw.coding _

end Home
