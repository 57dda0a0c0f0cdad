import Mathlib.Algebra.Order.Ring.Nat
import Mathlib.Data.List.Basic
import ManageOurHome.Lib.Loop

/-! @src apps/api/src/avatar.rs | layer:model | family:avatars

    The header of an uploaded JPEG, walked before anything is decoded: the frame its SOF declares, and the file without
    the APP2 segments of its header, as slices. Past the first scan an APP2 refuses the file. A panic, of a slice out of
    its bounds or of a position past a `usize`, is none.

        SOI  APP2  DQT  SOF  SOS  ···  EOI     ──▶     [SOI] [DQT SOF SOS ··· EOI]  and the SOF's frame -/

namespace Home.Avatar

open Loop

/-- A slice of bytes is never longer than an `isize`. -/
abbrev ByteSlice := { bytes : List UInt8 // bytes.length < 2 ^ 63 }

/-- Why an upload is refused. -/
inductive AvatarError where
  | TooLarge
  | UnsupportedType
  | Unreadable
  | ImageTooLarge
  deriving DecidableEq

inductive JpegCoding where
  | Sequential
  | Progressive
  | Lossless
  deriving DecidableEq

/-- A JPEG's frame, from its SOF segment. -/
structure JpegFrame where
  width : ℕ
  height : ℕ
  coding : JpegCoding
  sampling : List (UInt8 × UInt8)
  deriving DecidableEq

structure JpegHeader where
  kept : List (List UInt8)
  frame : JpegFrame
  deriving DecidableEq

/-- A sum of two `usize`. -/
def add (a b : ℕ) : Option ℕ := if a + b < 2 ^ 64 then some (a + b) else none

def get (bytes : List UInt8) (lo hi : ℕ) : Option (List UInt8) :=
  if lo ≤ hi ∧ hi ≤ bytes.length then some ((bytes.take hi).drop lo) else none

def fromBeBytes (high low : UInt8) : ℕ := high.toNat * 256 + low.toNat

/-- The markers with no length: TEM and the restarts. -/
def standalone (marker : UInt8) : Bool := marker == 0x01 || (0xD0 ≤ marker && marker ≤ 0xD7)

/-- SOF0 to SOF15, but DHT, JPG and DAC. -/
def isSof (marker : UInt8) : Bool :=
  0xC0 ≤ marker && marker ≤ 0xCF && marker != 0xC4 && marker != 0xC8 && marker != 0xCC

/-! ### The frame -/

def coding (marker : UInt8) : JpegCoding :=
  if marker = 0xC2 ∨ marker = 0xC6 ∨ marker = 0xCA ∨ marker = 0xCE then .Progressive
  else if marker = 0xC3 ∨ marker = 0xC7 ∨ marker = 0xCB ∨ marker = 0xCF then .Lossless
  else .Sequential

/-- The sampling factors of the components, three bytes each. -/
def samplingOf : List UInt8 → List (UInt8 × UInt8)
  | _ :: factors :: _ :: rest => (factors >>> 4, factors &&& 0x0F) :: samplingOf rest
  | _ => []

def factorOk (factor : UInt8) : Bool := 1 ≤ factor && factor ≤ 4

def parseSof (marker : UInt8) (segment : List UInt8) : Except AvatarError JpegFrame :=
  match get segment 0 6 with
  | some [_, h1, h0, w1, w0, count] =>
    match get segment 6 (6 + 3 * count.toNat) with
    | some components =>
      let sampling := samplingOf components
      if sampling.isEmpty || sampling.any fun s => !factorOk s.1 || !factorOk s.2 then .error .Unreadable
      else .ok ⟨fromBeBytes w1 w0, fromBeBytes h1 h0, coding marker, sampling⟩
    | none => .error .Unreadable
  | _ => .error .Unreadable

/-! ### Past the first scan -/

def iccTurn (bytes : List UInt8) (pos : ℕ) : Option (Turn ℕ Bool) := do
  let next ← add pos 1
  if bytes.length ≤ next then return .done false
  if (← bytes[pos]?) ≠ 0xFF then return .again next
  let marker ← bytes[next]?
  if marker = 0x00 ∨ marker = 0xFF ∨ standalone marker then return .again next
  if marker = 0xD9 then return .done false
  if marker = 0xE2 then return .done true
  match get bytes (← add pos 2) (← add pos 4) with
  | some [high, low] => return .again (← add pos (2 + fromBeBytes high low))
  | _ => return .done false

/-- Whether an APP2 segment comes after `pos`, the first SOS marker. -/
def iccPast (bytes : List UInt8) (pos : ℕ) : Option Bool := run (iccTurn bytes) (bytes.length + 1) pos

/-! ### Up to the first scan -/

def markerTurn (bytes : List UInt8) (pos : ℕ) : Option (Turn ℕ (Except AvatarError (UInt8 × ℕ))) := do
  match get bytes pos (← add pos 2) with
  | some [first, marker] =>
    if first ≠ 0xFF then return .done (.error .Unreadable)
    if marker = 0xFF then return .again (← add pos 1)
    return .done (.ok (marker, pos))
  | _ => return .done (.error .Unreadable)

/-- The next marker, past the fill bytes before it. -/
def markerFrom (bytes : List UInt8) (pos : ℕ) : Option (Except AvatarError (UInt8 × ℕ)) :=
  run (markerTurn bytes) (bytes.length + 1) pos

/-- Where the segment of the marker at `pos` ends. -/
def segmentEnd (bytes : List UInt8) (pos : ℕ) : Option (Except AvatarError ℕ) := do
  match get bytes (← add pos 2) (← add pos 4) with
  | some [high, low] =>
    let length := fromBeBytes high low
    let stop ← add (← add pos 2) length
    if length < 2 ∨ bytes.length < stop then return .error .Unreadable
    return .ok stop
  | _ => return .error .Unreadable

/-- The variables of the walk. -/
structure Walk where
  kept : List (List UInt8)
  keptFrom : ℕ
  frame : Option JpegFrame
  pos : ℕ

/-- The segment of a marker, from `pos` to `stop`. -/
def segmentTurn (bytes : List UInt8) (walk : Walk) (marker : UInt8) (pos stop : ℕ) :
    Option (Turn Walk (Except AvatarError Walk)) := do
  if marker = 0xE2 then
    return .again { walk with kept := walk.kept ++ [← get bytes walk.keptFrom pos], keptFrom := stop, pos := stop }
  if isSof marker then
    match parseSof marker (← get bytes (← add pos 4) stop) with
    | .error e => return .done (.error e)
    | .ok frame => return .again { walk with frame := some frame, pos := stop }
  return .again { walk with pos := stop }

def walkTurn (bytes : List UInt8) (walk : Walk) : Option (Turn Walk (Except AvatarError Walk)) := do
  match ← markerFrom bytes walk.pos with
  | .error e => return .done (.error e)
  | .ok (marker, pos) =>
    if standalone marker then return .again { walk with pos := ← add pos 2 }
    if marker = 0xD9 then return .done (.ok walk)
    if marker = 0xDA then
      if ← iccPast bytes pos then return .done (.error .ImageTooLarge)
      return .done (.ok walk)
    match ← segmentEnd bytes pos with
    | .error e => return .done (.error e)
    | .ok stop => segmentTurn bytes walk marker pos stop

/-- Walks a JPEG's markers up to its first scan: the frame its SOF declares, and the file without its ICC profile. -/
def scanJpegHeader (bytes : List UInt8) : Option (Except AvatarError JpegHeader) := do
  if bytes.take 2 ≠ [0xFF, 0xD8] then return .error .Unreadable
  match ← run (walkTurn bytes) (bytes.length + 1) ⟨[], 0, none, 2⟩ with
  | .error e => return .error e
  | .ok walk =>
    let kept := walk.kept ++ [← get bytes walk.keptFrom bytes.length]
    match walk.frame with
    | some frame => return .ok ⟨kept, frame⟩
    | none => return .error .Unreadable

end Home.Avatar
