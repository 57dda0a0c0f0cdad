import ManageOurHome.Lib.FMap
import ManageOurHome.Time

/-! @src apps/api/src/attachment_reconcile.rs | layer:model | family:storage

    The reconciliation pass: what it makes of a listing of the bucket, from the keys the rows name and an instant
    before which an object is old. Only an orphan is deleted: no row names it, and it is known to be old. -/

namespace Home.Storage

open FiniteMap

structure StoredObject (K : Type) where
  key : K
  sizeBytes : ℤ
  lastModified : Option ℤ
  deriving DecidableEq, Repr

structure OrphanScan (K : Type) where
  orphans : List (StoredObject K)
  inFlight : ℕ
  unknownAge : List K
  matched : ℕ

def OrphanScan.default {K : Type} : OrphanScan K := ⟨[], 0, [], 0⟩

def OrphanScan.orphanKeys {K : Type} (scan : OrphanScan K) : List K := scan.orphans.map (·.key)

structure Options (K : Type) where
  apply : Bool
  minAgeHours : ℤ
  scope : Option K

def MAX_MIN_AGE_HOURS : ℤ := 876000

/-- S3 caps a single `DeleteObjects` request. -/
def DELETE_OBJECTS_MAX_KEYS : ℕ := 1000

variable {K : Type} [DecidableEq K]

/-- One turn of the loop over the listing. -/
def OrphanScan.add (knownKeys : Finset K) (cutoff : ℤ) (scan : OrphanScan K) (object : StoredObject K) : OrphanScan K :=
  if object.key ∈ knownKeys then { scan with matched := scan.matched + 1 }
  else
    match object.lastModified with
    | some modified =>
      if modified < cutoff then { scan with orphans := scan.orphans ++ [object] }
      else { scan with inFlight := scan.inFlight + 1 }
    | none => { scan with unknownAge := scan.unknownAge ++ [object.key] }

def classify (listing : List (StoredObject K)) (knownKeys : Finset K) (cutoff : ℤ) : OrphanScan K :=
  listing.foldl (OrphanScan.add knownKeys cutoff) .default

/-! ### The four classes -/

inductive Class where
  | matched | orphan | inFlight | unknownAge
  deriving DecidableEq, Repr

/-- The class of an object. -/
def classOf (knownKeys : Finset K) (cutoff : ℤ) (object : StoredObject K) : Class :=
  if object.key ∈ knownKeys then .matched
  else object.lastModified.elim .unknownAge fun modified => if modified < cutoff then .orphan else .inFlight

/-- The objects of a class, as listed. -/
def ofClass (listing : List (StoredObject K)) (knownKeys : Finset K) (cutoff : ℤ) (c : Class) : List (StoredObject K) :=
  listing.filter fun object => classOf knownKeys cutoff object = c

variable {knownKeys : Finset K} {cutoff : ℤ}

/-- STEP: an object goes to its class and to no other. -/
theorem add_eq (scan : OrphanScan K) (object : StoredObject K) :
    scan.add knownKeys cutoff object =
      { orphans := scan.orphans ++ ofClass [object] knownKeys cutoff .orphan
        inFlight := scan.inFlight + (ofClass [object] knownKeys cutoff .inFlight).length
        unknownAge := scan.unknownAge ++ (ofClass [object] knownKeys cutoff .unknownAge).map (·.key)
        matched := scan.matched + (ofClass [object] knownKeys cutoff .matched).length } := by
  unfold OrphanScan.add ofClass classOf
  by_cases hknown : object.key ∈ knownKeys
  · simp [hknown]
  · cases hmodified : object.lastModified with
    | none => simp [hknown, hmodified]
    | some modified => by_cases hold : modified < cutoff <;> simp [hknown, hmodified, hold]

/-- RUN: every class of the scan is that class of the listing. -/
theorem classify_eq (listing : List (StoredObject K)) (knownKeys : Finset K) (cutoff : ℤ) :
    classify listing knownKeys cutoff =
      { orphans := ofClass listing knownKeys cutoff .orphan
        inFlight := (ofClass listing knownKeys cutoff .inFlight).length
        unknownAge := (ofClass listing knownKeys cutoff .unknownAge).map (·.key)
        matched := (ofClass listing knownKeys cutoff .matched).length } := by
  induction listing using List.reverseRecOn with
  | nil => rfl
  | append_singleton listing object ih =>
    rw [classify, List.foldl_append, List.foldl_cons, List.foldl_nil, add_eq]
    rw [classify] at ih
    rw [ih]
    simp [ofClass]

/-- An orphan is named by no row, and known to be older than the cutoff. -/
theorem mem_orphanKeys {listing : List (StoredObject K)} {k : K} :
    k ∈ (classify listing knownKeys cutoff).orphanKeys ↔
      k ∉ knownKeys ∧ ∃ object ∈ listing, object.key = k ∧ ∃ m, object.lastModified = some m ∧ m < cutoff := by
  rw [OrphanScan.orphanKeys, classify_eq]
  simp only [ofClass, List.mem_map, List.mem_filter, decide_eq_true_eq]
  constructor
  · rintro ⟨object, ⟨hmem, hclass⟩, rfl⟩
    rw [classOf] at hclass
    split at hclass
    · exact absurd hclass (by simp)
    · rename_i hknown
      cases hmodified : object.lastModified with
      | none => exact absurd hclass (by simp [hmodified])
      | some m =>
        rw [hmodified, Option.elim_some] at hclass
        split at hclass
        · rename_i hold
          exact ⟨hknown, object, hmem, rfl, m, hmodified, hold⟩
        · exact absurd hclass (by simp)
  · rintro ⟨hknown, object, hmem, rfl, m, hmodified, hold⟩
    exact ⟨object, ⟨hmem, by simp [classOf, hknown, hmodified, hold]⟩, rfl⟩

end Home.Storage
