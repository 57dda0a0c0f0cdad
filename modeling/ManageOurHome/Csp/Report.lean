import ManageOurHome.HttpGuard.BaseUrl
import ManageOurHome.Json
import ManageOurHome.Recipes.PlainText

/-! @src apps/api/src/csp_report.rs | layer:model | family:reports

    What is logged of a report: the URLs without their query, fragment and userinfo, and without the segments of their
    paths that look like a token. A path is cut at a "://" in it as a URL is at the one after its scheme: what stands
    before it, and the segment after it, is then written as it is.

        https://u:p@h/a/<token>?q     https://h/a/:redacted
        /a/<token>/x://<token>/y      /a/<token>/x://<token>/y -/

namespace Home.CspReport

open HttpGuard Recipes Json

/-! ### URLs -/

def MAX_VIOLATIONS_PER_REQUEST : ℕ := 10

def MAX_FIELD_CHARS : ℕ := 200

def OPAQUE_WITHOUT_DIGIT_LEN : ℕ := 32

def isAsciiDigit (c : Char) : Bool := 48 ≤ c.toNat ∧ c.toNat ≤ 57

def isAsciiAlphabetic (c : Char) : Bool := (65 ≤ c.toNat ∧ c.toNat ≤ 90) ∨ (97 ≤ c.toNat ∧ c.toNat ≤ 122)

def isAsciiAlphanumeric (c : Char) : Bool := isAsciiAlphabetic c || isAsciiDigit c

def tokenChar (c : Char) : Bool := isAsciiAlphanumeric c || c = '-' || c = '_'

/-- A segment that names a thing rather than a place. The code counts bytes: all that passes is ASCII. -/
def opaqueSegment (segment : Text) : Bool :=
  16 ≤ segment.length && (OPAQUE_WITHOUT_DIGIT_LEN ≤ segment.length || segment.any isAsciiDigit) &&
    segment.all tokenChar

def redactSegment (segment : Text) : Text := if opaqueSegment segment then ":redacted".toList else segment

def redactPath (path : Text) : Text := ['/'].intercalate ((path.splitOn '/').map redactSegment)

def isScheme : Text → Bool
  | [] => false
  | c :: rest => isAsciiAlphabetic c && rest.all fun c => isAsciiAlphanumeric c || c = '+' || c = '-' || c = '.'

/-- `char::is_control`. -/
def isControl (c : Char) : Bool := c.toNat < 32 ∨ (127 ≤ c.toNat ∧ c.toNat ≤ 159)

/-- A character that could start a line of the log. -/
def breaksLine (c : Char) : Bool := isControl c || c = '\u2028' || c = '\u2029'

def clean (c : Char) : Char := if breaksLine c then '\uFFFD' else c

def cut (s : Text) : Text := (s.take MAX_FIELD_CHARS).map clean

/-- What follows the last `@`. -/
def hostOf (authority : Text) : Text := authority.rtakeWhile (· ≠ '@')

def redactUrl (url : Text) : Text :=
  let url := trim url
  match (splitOnce [':'] url).filter fun (scheme, rest) => isScheme scheme && ! ['/', '/'].isPrefixOf rest with
  | some (scheme, _) => cut scheme
  | none =>
    let url := url.takeWhile fun c => c ≠ '?' ∧ c ≠ '#'
    match splitOnce [':', '/', '/'] url with
    | none => cut (redactPath url)
    | some (scheme, rest) =>
      let authority := rest.takeWhile (· ≠ '/')
      let path := rest.dropWhile (· ≠ '/')
      cut (scheme ++ [':', '/', '/'] ++ hostOf authority ++ redactPath path)

/-! ### Reports -/

structure Violation where
  document : Text
  directive : Text
  blocked : Text
  source : Option Text
  line : Option ℕ
  disposition : Text
  deriving DecidableEq

/-- Where each field sits in one of the two report shapes. -/
structure Names where
  document : Text
  directive : Text
  violated : Text
  blocked : Text
  source : Text
  line : Text
  deriving DecidableEq

def LEGACY : Names where
  document := "document-uri".toList
  directive := "effective-directive".toList
  violated := "violated-directive".toList
  blocked := "blocked-uri".toList
  source := "source-file".toList
  line := "line-number".toList

def REPORTING_API : Names where
  document := "documentURL".toList
  directive := "effectiveDirective".toList
  violated := "violatedDirective".toList
  blocked := "blockedURL".toList
  source := "sourceFile".toList
  line := "lineNumber".toList

def textOf (fields : List (Text × Value)) (key : Text) : Option Text := (get key fields).bind Value.asStr

def violationOf (names : Names) (fields : List (Text × Value)) : Violation where
  document := redactUrl ((textOf fields names.document).getD [])
  directive := cut ((textOf fields names.directive <|>
    (textOf fields names.violated).bind fun d => (splitWhitespace d).head?).getD [])
  blocked := redactUrl ((textOf fields names.blocked).getD [])
  source := (textOf fields names.source).map redactUrl
  line := (get names.line fields).bind Value.asU64
  disposition := cut ((textOf fields "disposition".toList).getD [])

def violation (report : Value × Names) : Option Violation :=
  match report.1 with
  | .Object fields => some (violationOf report.2 fields)
  | _ => none

/-- The report of a `csp-violation` entry. -/
def reportOf (entry : Value) : Option Value :=
  if (entry.get "type".toList).bind Value.asStr = some "csp-violation".toList then entry.get "body".toList else none

def reports : Value → List (Value × Names)
  | .Object legacy => ((get "csp-report".toList legacy).map (·, LEGACY)).toList
  | .Array batch => (batch.filterMap reportOf).map (·, REPORTING_API)
  | _ => []

/-- The violations of a body: the value it is, or none when it is not JSON. -/
def violations (json : Option Value) : List Violation :=
  ((json.elim [] reports).filterMap violation).take MAX_VIOLATIONS_PER_REQUEST

/-! ### The bounds of what is logged -/

/-- One line of the log, and no more. -/
def OneLine (s : Text) : Prop := s.length ≤ MAX_FIELD_CHARS ∧ ∀ c ∈ s, breaksLine c = false

theorem breaksLine_clean (c : Char) : breaksLine (clean c) = false := by
  rw [clean]
  split
  · decide
  · rename_i h
    exact Bool.eq_false_iff.mpr h

theorem oneLine_cut (s : Text) : OneLine (cut s) := by
  refine ⟨?_, fun c hc => ?_⟩
  · rw [cut, List.length_map]
    exact List.length_take_le _ _
  · obtain ⟨c, -, rfl⟩ := List.mem_map.mp hc
    exact breaksLine_clean c

theorem oneLine_redactUrl (url : Text) : OneLine (redactUrl url) := by
  rw [redactUrl]
  dsimp only
  split
  · exact oneLine_cut _
  · split
    · exact oneLine_cut _
    · exact oneLine_cut _

/-- Each text of a violation is one line. -/
structure Violation.Bounded (v : Violation) : Prop where
  document : OneLine v.document
  directive : OneLine v.directive
  blocked : OneLine v.blocked
  source : ∀ s ∈ v.source, OneLine s
  disposition : OneLine v.disposition

theorem bounded_of_mem_violations {json : Option Value} {v : Violation} (h : v ∈ violations json) : v.Bounded := by
  obtain ⟨⟨report, names⟩, -, hviolation⟩ := List.mem_filterMap.mp (List.mem_of_mem_take h)
  cases report with
  | Object fields =>
    cases hviolation
    exact {
      document := oneLine_redactUrl _
      directive := oneLine_cut _
      blocked := oneLine_redactUrl _
      source := by
        intro s hs
        obtain ⟨t, -, rfl⟩ := Option.map_eq_some_iff.mp hs
        exact oneLine_redactUrl t
      disposition := oneLine_cut _
    }
  | _ => cases hviolation

theorem length_violations_le (json : Option Value) : (violations json).length ≤ MAX_VIOLATIONS_PER_REQUEST :=
  List.length_take_le _ _

end Home.CspReport
