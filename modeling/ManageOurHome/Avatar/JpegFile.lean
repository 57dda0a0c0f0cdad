import ManageOurHome.Avatar.JpegWalk

/-! @src apps/api/src/avatar.rs | layer:proof | family:avatars

    A JPEG as the format has it: SOI, the segments of its header, its scans, EOI and whatever trails. The walk by
    lengths and the walk through the entropy-coded data keep to its markers, whatever the segments hold.

        SOI  header  (SOS  data  segments)*  EOI  trailing -/

namespace Home.Avatar

open Loop

/-! ### The frame header -/

structure Component where
  id : UInt8
  h : UInt8
  v : UInt8
  table : UInt8
  factors : (1 ≤ h ∧ h ≤ 4) ∧ 1 ≤ v ∧ v ≤ 4

def Component.bytes (component : Component) : List UInt8 :=
  [component.id, component.h * 16 + component.v, component.table]

structure FrameHeader where
  precision : UInt8
  height : ℕ
  width : ℕ
  components : List Component
  height_lt : height < 2 ^ 16
  width_lt : width < 2 ^ 16
  components_ne : components ≠ []
  components_lt : components.length < 2 ^ 8

def FrameHeader.payload (header : FrameHeader) : List UInt8 :=
  header.precision :: (toBeBytes header.height ++ toBeBytes header.width ++
    [UInt8.ofNat header.components.length] ++ header.components.flatMap Component.bytes)

/-- The frame it declares under a SOF's marker. -/
def FrameHeader.frame (header : FrameHeader) (code : UInt8) : JpegFrame :=
  ⟨header.width, header.height, coding code, header.components.map fun component => (component.h, component.v)⟩

theorem factor_cases {n : UInt8} (h : 1 ≤ n ∧ n ≤ 4) : n = 1 ∨ n = 2 ∨ n = 3 ∨ n = 4 := by
  have hlo : 1 ≤ n.toNat := h.1
  have hhi : n.toNat ≤ 4 := h.2
  simp only [← UInt8.toNat_inj]
  have hliterals : (1 : UInt8).toNat = 1 ∧ (2 : UInt8).toNat = 2 ∧ (3 : UInt8).toNat = 3 ∧ (4 : UInt8).toNat = 4 := by
    decide
  omega

theorem sampling_factors (component : Component) :
    ((component.h * 16 + component.v) >>> 4, (component.h * 16 + component.v) &&& 0x0F) =
      (component.h, component.v) := by
  obtain ⟨id, h, v, table, hh, hv⟩ := component
  simp only
  rcases factor_cases hh with rfl | rfl | rfl | rfl <;> rcases factor_cases hv with rfl | rfl | rfl | rfl <;> decide

theorem samplingOf_components (components : List Component) :
    samplingOf (components.flatMap Component.bytes) =
      components.map fun component => (component.h, component.v) := by
  induction components with
  | nil => rfl
  | cons component components ih =>
    rw [List.map_cons, ← ih, ← sampling_factors component]
    rfl

theorem length_components (components : List Component) :
    (components.flatMap Component.bytes).length = 3 * components.length := by
  induction components with
  | nil => rfl
  | cons component components ih =>
    rw [List.flatMap_cons, List.length_append, ih, List.length_cons, Component.bytes]
    simp only [List.length_cons, List.length_nil]
    omega

/-- A frame header is read whole. -/
theorem parseSof_payload (code : UInt8) (header : FrameHeader) :
    parseSof code header.payload = .ok (header.frame code) := by
  have hcount : (UInt8.ofNat header.components.length).toNat = header.components.length := by
    rw [UInt8.toNat_ofNat', Nat.mod_eq_of_lt header.components_lt]
  have hhead : get header.payload 0 6 = some (header.precision :: (toBeBytes header.height ++ toBeBytes header.width ++
      [UInt8.ofNat header.components.length])) :=
    get_of_drop (m := header.precision :: (toBeBytes header.height ++ toBeBytes header.width ++
      [UInt8.ofNat header.components.length])) (Nat.zero_le _) rfl
  have hrest : get header.payload 6 (6 + 3 * header.components.length) =
      some (header.components.flatMap Component.bytes) := by
    have hdrop : header.payload.drop 6 = header.components.flatMap Component.bytes ++ [] := by
      rw [List.append_nil]
      rfl
    rw [← length_components]
    exact get_of_drop (by simp [FrameHeader.payload, toBeBytes]) hdrop
  have hsome : (header.components.map fun component => (component.h, component.v)).isEmpty = false := by
    rw [List.isEmpty_eq_false_iff]
    exact fun hnil => header.components_ne (List.map_eq_nil_iff.mp hnil)
  have hfactors : (header.components.map fun component => (component.h, component.v)).any
      (fun s => !factorOk s.1 || !factorOk s.2) = false := by
    rw [List.any_eq_false]
    intro s hs
    obtain ⟨component, -, rfl⟩ := List.mem_map.mp hs
    have hc := component.factors
    simp [factorOk, hc.1.1, hc.1.2, hc.2.1, hc.2.2]
  simp only [parseSof, hhead, toBeBytes, List.cons_append, List.nil_append, hcount, hrest, samplingOf_components, hsome,
    hfactors, fromBeBytes_toBeBytes header.height_lt, fromBeBytes_toBeBytes header.width_lt, Bool.or_self]
  rfl

/-! ### A JPEG -/

/-- The bytes of a scan: what is not a marker, a stuffed zero after 0xFF, and restart markers. -/
inductive Coded where
  | byte (b : UInt8)
  | stuffed
  | restart (fills : ℕ) (code : UInt8)

def Coded.bytes : Coded → List UInt8
  | .byte b => [b]
  | .stuffed => [0xFF, 0x00]
  | .restart fills code => fillBytes fills ++ [0xFF, code]

def Coded.Lawful : Coded → Prop
  | .byte b => b ≠ 0xFF
  | .stuffed => True
  | .restart _ code => 0xD0 ≤ code ∧ code ≤ 0xD7

/-- No segment begins at a stuffed zero, and none at a SOI. -/
def Part.Lawful (part : Part) : Prop :=
  part.Wf ∧ ∀ code payload, part = .segment code payload → code ≠ 0x00 ∧ code ≠ 0xD8

/-- A SOS, its data, and what comes before the next SOS or the EOI. -/
structure Scan where
  fills : ℕ
  sos : List UInt8
  data : List Coded
  after : List Piece
  sos_lt : sos.length + 2 < 2 ^ 16
  data_lawful : ∀ coded ∈ data, coded.Lawful
  after_lawful : ∀ piece ∈ after, piece.part.Lawful

def Scan.body (scan : Scan) : List UInt8 :=
  (Part.segment 0xDA scan.sos).bytes ++ scan.data.flatMap Coded.bytes ++ scan.after.flatMap Piece.bytes

def Scan.bytes (scan : Scan) : List UInt8 := fillBytes scan.fills ++ scan.body

structure Jpeg where
  header : List Piece
  scans : List Scan
  fills : ℕ
  trailing : List UInt8
  header_lawful : ∀ piece ∈ header, piece.part.Lawful
  frames : ∀ piece ∈ header, ∀ code payload, piece.part = .segment code payload → isSof code = true →
    ∃ frame : FrameHeader, payload = frame.payload

namespace Jpeg

/-- The EOI and what trails. -/
def eoi (jpeg : Jpeg) : List UInt8 := fillBytes jpeg.fills ++ 0xFF :: 0xD9 :: jpeg.trailing

def bytes (jpeg : Jpeg) : List UInt8 :=
  soi ++ (jpeg.header.flatMap Piece.bytes ++ (jpeg.scans.flatMap Scan.bytes ++ jpeg.eoi))

/-- The last SOF of the header. -/
def LastSof (jpeg : Jpeg) (code : UInt8) (frame : FrameHeader) : Prop :=
  isSof code = true ∧ ∃ before fills after,
    jpeg.header = before ++ ⟨fills, .segment code frame.payload⟩ :: after ∧
    ∀ piece ∈ after, ∀ code payload, piece.part = .segment code payload → isSof code = false

/-- An APP2 segment stands after the first SOS and before the EOI. -/
def App2Past (jpeg : Jpeg) : Prop :=
  ∃ scan ∈ jpeg.scans, ∃ piece ∈ scan.after, ∃ payload, piece.part = .segment 0xE2 payload

end Jpeg

/-! ### Past the first scan -/

def Part.isApp2 : Part → Bool
  | .standalone _ => false
  | .segment code _ => code == 0xE2

/-- Bytes that the walk past the first scan passes, or where it finds an APP2, whatever stands before and after. -/
def Scanned (l : List UInt8) (app2 : Bool) : Prop :=
  ∀ (bytes : List UInt8) (pos : ℕ) (rest : List UInt8), bytes.length < 2 ^ 63 → rest ≠ [] →
    bytes.drop pos = l ++ rest → ∀ r, Ends (iccTurn bytes) pos r ↔
      if app2 then r = true else Ends (iccTurn bytes) (pos + l.length) r

theorem scanned_nil : Scanned [] false := fun _ _ _ _ _ _ _ => Iff.rfl

theorem Scanned.append {l l' : List UInt8} {a a' : Bool} (h : Scanned l a) (h' : Scanned l' a') :
    Scanned (l ++ l') (a || a') := by
  intro bytes pos rest hfits hrest hdrop r
  rw [List.append_assoc] at hdrop
  rw [h bytes pos (l' ++ rest) hfits (by simp [hrest]) hdrop r]
  cases a with
  | true => rfl
  | false =>
    rw [Bool.false_or, List.length_append, ← Nat.add_assoc]
    exact h' bytes (pos + l.length) rest hfits hrest (drop_add hdrop) r

theorem scanned_flatMap {α : Type} {f : α → List UInt8} {g : α → Bool} {xs : List α}
    (h : ∀ x ∈ xs, Scanned (f x) (g x)) : Scanned (xs.flatMap f) (xs.any g) := by
  induction xs with
  | nil => exact scanned_nil
  | cons x xs ih =>
    rw [List.forall_mem_cons] at h
    exact h.1.append (ih h.2)

theorem exists_cons_of_ne_nil {l : List UInt8} (h : l ≠ []) : ∃ x tail, l = x :: tail := by
  cases l with
  | nil => exact absurd rfl h
  | cons x tail => exact ⟨x, tail, rfl⟩

theorem scanned_byte {b : UInt8} (hb : b ≠ 0xFF) : Scanned [b] false := by
  intro bytes pos rest hfits hrest hdrop r
  obtain ⟨x, tail, rfl⟩ := exists_cons_of_ne_nil hrest
  exact ends_again_iff (iccTurn_pass hfits hdrop (.inl hb))

/-- A marker with no length, or a stuffed zero. -/
theorem scanned_pair {y : UInt8} (hy : y = 0x00 ∨ standalone y = true) : Scanned [0xFF, y] false := by
  have hne : y ≠ 0xFF := by
    rintro rfl
    exact absurd hy (by decide)
  intro bytes pos rest hfits hrest hdrop r
  rw [ends_again_iff (iccTurn_pass hfits hdrop (.inr (hy.imp_right .inr)))]
  exact scanned_byte hne bytes (pos + 1) rest hfits hrest (drop_succ hdrop) r

/-- Fill bytes are passed on the way to a marker. -/
theorem Scanned.fills {l : List UInt8} {a : Bool} (fills : ℕ) (h : Scanned (0xFF :: l) a) :
    Scanned (fillBytes fills ++ 0xFF :: l) a := by
  induction fills with
  | zero => exact h
  | succ fills ih =>
    intro bytes pos rest hfits hrest hdrop r
    have hpair : ∃ tail, bytes.drop pos = 0xFF :: 0xFF :: tail := by
      cases fills with
      | zero => exact ⟨_, hdrop⟩
      | succ fills => exact ⟨_, hdrop⟩
    obtain ⟨tail, hpair⟩ := hpair
    rw [ends_again_iff (iccTurn_pass hfits hpair (.inr (.inr (.inl rfl)))),
      ih bytes (pos + 1) rest hfits hrest (drop_succ hdrop) r]
    have hlen : pos + 1 + (fillBytes fills ++ 0xFF :: l).length =
        pos + (fillBytes (fills + 1) ++ 0xFF :: l).length := by
      simp only [fillBytes, List.length_append, List.length_replicate]
      omega
    rw [hlen]

theorem Part.exists_bytes_eq (part : Part) : ∃ l, part.bytes = 0xFF :: l := by
  cases part with
  | standalone code => exact ⟨_, rfl⟩
  | segment code payload => exact ⟨_, rfl⟩

theorem scanned_segment {code : UInt8} {payload : List UInt8} (hcode : code ≠ 0xFF ∧ standalone code = false)
    (hmarker : code ≠ 0x00 ∧ code ≠ 0xD9) (hpayload : payload.length + 2 < 2 ^ 16) :
    Scanned (Part.segment code payload).bytes (code == 0xE2) := by
  intro bytes pos rest hfits hrest hdrop r
  have hnot : ¬(code = 0x00 ∨ code = 0xFF ∨ standalone code = true) := by simp [hcode.1, hcode.2, hmarker.1]
  have hturn := iccTurn_marker hfits hdrop hnot
  rw [if_neg hmarker.2] at hturn
  by_cases happ2 : code = 0xE2
  · rw [if_pos happ2] at hturn
    rw [happ2, beq_self_eq_true, if_pos rfl]
    exact ends_done_iff hturn
  · rw [if_neg happ2, if_neg (by simp [toBeBytes])] at hturn
    rw [beq_false_of_ne happ2, if_neg Bool.false_ne_true, ends_again_iff hturn]
    have hbe := fromBeBytes_toBeBytes hpayload
    have hlen : pos + (2 + (payload.length + 2)) = pos + (Part.segment code payload).bytes.length := by
      rw [Part.length_segment]
      omega
    simp [toBeBytes, hbe, ← hlen]

theorem scanned_part {part : Part} (h : part.Lawful) : Scanned part.bytes part.isApp2 := by
  cases part with
  | standalone code => exact scanned_pair (.inr h.1)
  | segment code payload =>
    obtain ⟨⟨⟨hne, halone, heoi, -⟩, hpayload⟩, hlawful⟩ := h
    exact scanned_segment ⟨hne, halone⟩ ⟨(hlawful code payload rfl).1, heoi⟩ hpayload

theorem scanned_piece {piece : Piece} (h : piece.part.Lawful) : Scanned piece.bytes piece.part.isApp2 := by
  have hpart := scanned_part h
  obtain ⟨l, hl⟩ := piece.part.exists_bytes_eq
  rw [Piece.bytes, hl]
  rw [hl] at hpart
  exact hpart.fills piece.fills

theorem scanned_coded {coded : Coded} (h : coded.Lawful) : Scanned coded.bytes false := by
  cases coded with
  | byte b => exact scanned_byte h
  | stuffed => exact scanned_pair (.inl rfl)
  | restart fills code =>
    have hcode : standalone code = true := by
      simp only [standalone, Bool.or_eq_true, Bool.and_eq_true, decide_eq_true_eq]
      exact .inr h
    exact (scanned_pair (.inr hcode)).fills fills

theorem scanned_body (scan : Scan) : Scanned scan.body (scan.after.any fun piece => piece.part.isApp2) := by
  have hsos : Scanned (Part.segment 0xDA scan.sos).bytes false :=
    scanned_segment (by decide) (by decide) scan.sos_lt
  have hdata := scanned_flatMap (g := fun _ => false) fun coded hc => scanned_coded (scan.data_lawful coded hc)
  have hafter := scanned_flatMap fun piece hp => scanned_piece (scan.after_lawful piece hp)
  have hnone : (scan.data.any fun _ => false) = false := List.any_eq_false.mpr fun _ _ => Bool.false_ne_true
  rw [hnone] at hdata
  exact (hsos.append hdata).append hafter

theorem scanned_scan (scan : Scan) : Scanned scan.bytes (scan.after.any fun piece => piece.part.isApp2) :=
  (scanned_body scan).fills scan.fills

theorem ends_icc_eoi {bytes trailing : List UInt8} (hfits : bytes.length < 2 ^ 63) (fills pos : ℕ)
    (hdrop : bytes.drop pos = fillBytes fills ++ 0xFF :: 0xD9 :: trailing) : Ends (iccTurn bytes) pos false := by
  induction fills generalizing pos with
  | zero =>
    have hturn := iccTurn_marker hfits hdrop (by decide)
    exact .done (hturn.trans (if_pos rfl))
  | succ fills ih =>
    have hpair : ∃ tail, bytes.drop pos = 0xFF :: 0xFF :: tail := by
      cases fills with
      | zero => exact ⟨_, hdrop⟩
      | succ fills => exact ⟨_, hdrop⟩
    obtain ⟨tail, hpair⟩ := hpair
    exact .again (iccTurn_pass hfits hpair (.inr (.inr (.inl rfl)))) (ih (pos + 1) (drop_succ hdrop))

/-- From the first SOS to the EOI the walk finds an APP2 if there is one. -/
theorem iccPast_eq {bytes trailing : List UInt8} {pos fills : ℕ} {scan : Scan} {scans : List Scan}
    (hfits : bytes.length < 2 ^ 63)
    (hdrop : bytes.drop pos = scan.body ++ (scans.flatMap Scan.bytes ++ (fillBytes fills ++ 0xFF :: 0xD9 :: trailing))) :
    iccPast bytes pos =
      some ((scan :: scans).any fun scan => scan.after.any fun piece => piece.part.isApp2) := by
  have hscans : Scanned (scan.body ++ scans.flatMap Scan.bytes)
      ((scan :: scans).any fun scan => scan.after.any fun piece => piece.part.isApp2) :=
    (scanned_body scan).append (scanned_flatMap fun scan _ => scanned_scan scan)
  have hbody : scan.body = 0xFF :: scan.body.tail := rfl
  obtain ⟨past, hpast⟩ := iccPast_total hfits (Nat.le_of_lt (lt_of_drop (hbody ▸ hdrop)))
  rw [← List.append_assoc] at hdrop
  have hends := hscans bytes pos _ hfits (by simp) hdrop past
  rw [hpast, Option.some.injEq]
  cases happ2 : (scan :: scans).any fun scan => scan.after.any fun piece => piece.part.isApp2 with
  | true =>
    rw [happ2, if_pos rfl] at hends
    exact hends.mp (ends_of_run hpast)
  | false =>
    rw [happ2, if_neg Bool.false_ne_true] at hends
    exact (hends.mp (ends_of_run hpast)).unique (ends_icc_eoi hfits fills _ (drop_add hdrop))

/-! ### The answer on a JPEG -/

namespace Jpeg

variable {jpeg : Jpeg} {code : UInt8} {frame : FrameHeader} {bytes : List UInt8}

theorem any_app2_iff (jpeg : Jpeg) :
    (jpeg.scans.any fun scan => scan.after.any fun piece => piece.part.isApp2) = true ↔ jpeg.App2Past := by
  have hpart : ∀ part : Part, part.isApp2 = true ↔ ∃ payload, part = .segment 0xE2 payload := by
    intro part
    cases part <;> simp [Part.isApp2]
  simp only [List.any_eq_true, hpart, App2Past]

/-- Every SOF of the header declares its frame. -/
theorem sof_ok {piece : Piece} (hp : piece ∈ jpeg.header) : piece.sof ≠ some (.error .Unreadable) := by
  intro hsof
  unfold Piece.sof at hsof
  split at hsof
  · cases hsof
  · rename_i code payload hpart
    split_ifs at hsof with hcode
    obtain ⟨frame, rfl⟩ := jpeg.frames piece hp code payload hpart hcode
    rw [parseSof_payload] at hsof
    cases hsof

theorem foldl_frameAfter_of_sof_eq_none {pieces : List Piece} {known : Option JpegFrame}
    (h : ∀ piece ∈ pieces, piece.sof = none) :
    pieces.foldl (fun frame piece => piece.frameAfter frame) known = known := by
  induction pieces with
  | nil => rfl
  | cons piece pieces ih =>
    rw [List.forall_mem_cons] at h
    rw [List.foldl_cons, Piece.frameAfter, h.1]
    exact ih h.2

/-- The frame known at the end of the header is its last SOF's. -/
theorem foldl_frameAfter (hlast : jpeg.LastSof code frame) (known : Option JpegFrame) :
    jpeg.header.foldl (fun frame piece => piece.frameAfter frame) known = some (frame.frame code) := by
  obtain ⟨hcode, before, fills, after, heq, hafter⟩ := hlast
  have hnone : ∀ piece ∈ after, piece.sof = none := by
    intro piece hp
    unfold Piece.sof
    split
    · rfl
    · rename_i c payload hpart
      rw [hafter piece hp c payload hpart]
      rfl
  have hsof : Piece.sof ⟨fills, .segment code frame.payload⟩ = some (.ok (frame.frame code)) := by
    rw [← parseSof_payload]
    exact if_pos hcode
  rw [heq, List.foldl_append, List.foldl_cons, foldl_frameAfter_of_sof_eq_none hnone, Piece.frameAfter, hsof]

/-- The answer on a JPEG with a SOF in its header. -/
theorem scan_eq (hfits : bytes.length < 2 ^ 63) (hbytes : bytes = jpeg.bytes) (hlast : jpeg.LastSof code frame) :
    (jpeg.App2Past ∧ scanJpegHeader bytes = some (.error .ImageTooLarge)) ∨
    (¬jpeg.App2Past ∧ ∃ kept, scanJpegHeader bytes = some (.ok ⟨kept, frame.frame code⟩)) := by
  have hwf : ∀ piece ∈ jpeg.header, piece.part.Wf := fun piece hp => (jpeg.header_lawful piece hp).1
  obtain ⟨next, hnext, hframe, hends⟩ | ⟨⟨piece, hp, hsof⟩, -⟩ := ends_pieces hfits hwf (startWalk_at hbytes)
  swap
  · exact absurd hsof (sof_ok hp)
  rw [foldl_frameAfter hlast] at hframe
  have hok : Ends (walkTurn bytes) next (.ok next) →
      ∃ kept, scanJpegHeader bytes = some (.ok ⟨kept, frame.frame code⟩) := by
    intro hnextEnds
    have hscan := scan_of_ok hfits hbytes ((hends _).mpr hnextEnds)
    rw [hframe] at hscan
    exact ⟨_, hscan⟩
  rw [← any_app2_iff]
  cases hscans : jpeg.scans with
  | nil =>
    rw [hscans] at hnext
    exact .inr ⟨Bool.false_ne_true, hok ((ends_eoi hfits hnext _).mpr rfl)⟩
  | cons scan scans =>
    rw [hscans, List.flatMap_cons, List.append_assoc, Scan.bytes, List.append_assoc] at hnext
    have hdrop := drop_add hnext.rest
    rw [fillBytes, List.length_replicate] at hdrop
    have hsos := ends_sos hfits hnext (iccPast_eq hfits hdrop)
    cases happ2 : (scan :: scans).any fun scan => scan.after.any fun piece => piece.part.isApp2 with
    | true =>
      rw [happ2, if_pos rfl] at hsos
      exact .inl ⟨rfl, scan_of_error hfits hbytes ((hends _).mpr ((hsos _).mpr rfl))⟩
    | false =>
      rw [happ2, if_neg Bool.false_ne_true] at hsos
      exact .inr ⟨Bool.false_ne_true, hok ((hsos _).mpr rfl)⟩

end Jpeg

/-- The walk of any file ends without a panic, and a header keeps all of the file but the APP2 segments before its first
    SOS. On a JPEG with a SOF before its first scan, the frame is the last such SOF's, and the file is refused as too
    large exactly for an APP2 past its first SOS. -/
theorem scanJpegHeader_exact :
    (∀ file : ByteSlice, ∃ answer, scanJpegHeader file.1 = some answer ∧ ∀ header, answer = .ok header →
      (∃ pieces rest, Header file.1 pieces rest) ∧
      ∀ pieces rest, Header file.1 pieces rest →
        header.kept.flatten = soi ++ pieces.flatMap Piece.kept ++ rest) ∧
    ∀ (jpeg : Jpeg) (file : ByteSlice) (code : UInt8) (frame : FrameHeader),
      file.1 = jpeg.bytes → jpeg.LastSof code frame →
        (scanJpegHeader file.1 = some (.error .ImageTooLarge) ↔ jpeg.App2Past) ∧
        (¬jpeg.App2Past → ∃ kept, scanJpegHeader file.1 = some (.ok ⟨kept, frame.frame code⟩)) := by
  refine ⟨fun file => ?_, fun jpeg file code frame hfile hlast => ?_⟩
  · obtain ⟨answer, hscan, hheader⟩ := scan_total file.2
    refine ⟨answer, hscan, fun header hok => ⟨hheader header hok, fun pieces rest hread => ?_⟩⟩
    exact scan_kept file.2 (hok ▸ hscan) hread
  · obtain ⟨happ2, hscan⟩ | ⟨hnot, kept, hscan⟩ := Jpeg.scan_eq file.2 hfile hlast
    · exact ⟨⟨fun _ => happ2, fun _ => hscan⟩, fun hnot => absurd happ2 hnot⟩
    · refine ⟨⟨fun herror => ?_, fun happ2 => absurd happ2 hnot⟩, fun _ => ⟨kept, hscan⟩⟩
      rw [hscan] at herror
      cases herror

/-! ### A grey pixel -/

theorem grey_factors : ((1 : UInt8) ≤ 1 ∧ (1 : UInt8) ≤ 4) ∧ (1 : UInt8) ≤ 1 ∧ (1 : UInt8) ≤ 4 := by decide

def grey : Component := ⟨1, 1, 1, 0, grey_factors⟩

theorem pixel_lt : 1 < 2 ^ 16 := by decide

theorem pixel_components_lt : [grey].length < 2 ^ 8 := by decide

def pixelFrame : FrameHeader := ⟨8, 1, 1, [grey], pixel_lt, pixel_lt, List.cons_ne_nil _ _, pixel_components_lt⟩

/-- A profile, then the SOF of the pixel. -/
def pixelHeader : List Piece := [⟨0, .segment 0xE2 [0x49]⟩, ⟨1, .segment 0xC0 pixelFrame.payload⟩]

theorem pixelHeader_lawful : ∀ piece ∈ pixelHeader, piece.part.Lawful := by
  simp only [pixelHeader, List.forall_mem_cons, Part.Lawful, Part.Wf, Sized, Part.segment.injEq, and_imp]
  refine ⟨⟨by decide, ?_⟩, ⟨by decide, ?_⟩, fun _ hp => absurd hp List.not_mem_nil⟩
  all_goals
    rintro _ _ rfl -
    decide

theorem pixelHeader_frames : ∀ piece ∈ pixelHeader, ∀ code payload, piece.part = .segment code payload →
    isSof code = true → ∃ frame : FrameHeader, payload = frame.payload := by
  simp only [pixelHeader, List.forall_mem_cons, Part.segment.injEq, and_imp]
  refine ⟨?_, ?_, fun _ hp => absurd hp List.not_mem_nil⟩
  · rintro _ _ rfl - hsof
    exact absurd hsof (by decide)
  · rintro _ _ - rfl -
    exact ⟨pixelFrame, rfl⟩

/-- Its data holds a stuffed zero and a restart marker, and the comment after it what looks like a profile's marker. -/
def pixelData : List Coded := [.byte 0x3C, .stuffed, .restart 1 0xD0]

def pixelAfter : List Piece := [⟨0, .segment 0xFE [0xFF, 0xE2]⟩]

theorem pixelData_lawful : ∀ coded ∈ pixelData, coded.Lawful := by
  simp only [pixelData, List.forall_mem_cons, Coded.Lawful]
  exact ⟨by decide, trivial, by decide, fun _ hc => absurd hc List.not_mem_nil⟩

theorem pixelAfter_lawful : ∀ piece ∈ pixelAfter, piece.part.Lawful := by
  simp only [pixelAfter, List.forall_mem_cons, Part.Lawful, Part.Wf, Sized, Part.segment.injEq, and_imp]
  refine ⟨⟨by decide, ?_⟩, fun _ hp => absurd hp List.not_mem_nil⟩
  rintro _ _ rfl -
  decide

theorem pixel_sos_lt : [(1 : UInt8)].length + 2 < 2 ^ 16 := by decide

def pixel : Jpeg where
  header := pixelHeader
  scans := [⟨0, [1], pixelData, pixelAfter, pixel_sos_lt, pixelData_lawful, pixelAfter_lawful⟩]
  fills := 0
  trailing := [0xFF, 0xE2]
  header_lawful := pixelHeader_lawful
  frames := pixelHeader_frames

theorem pixel_lt_isize : pixel.bytes.length < 2 ^ 63 := by decide

theorem pixel_not_app2Past : ¬pixel.App2Past := by
  rw [← Jpeg.any_app2_iff]
  decide

theorem scanJpegHeader_exact_pixel :
    ∃ kept, scanJpegHeader pixel.bytes = some (.ok ⟨kept, ⟨1, 1, .Sequential, [(1, 1)]⟩⟩) :=
  (scanJpegHeader_exact.2 pixel ⟨pixel.bytes, pixel_lt_isize⟩ 0xC0 pixelFrame rfl
    ⟨by decide, [⟨0, .segment 0xE2 [0x49]⟩], 1, [], rfl, fun _ hp => absurd hp List.not_mem_nil⟩).2 pixel_not_app2Past

end Home.Avatar
