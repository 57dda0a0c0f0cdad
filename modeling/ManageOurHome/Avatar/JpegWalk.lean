import ManageOurHome.Avatar.Jpeg

/-! @src apps/api/src/avatar.rs | layer:proof | family:avatars

    What the walk passes over, marker by marker: fill bytes, then a standalone marker or one with a segment. The walk of
    any file comes to an end, and what it keeps is what it passed but the APP2 segments. -/

namespace Home.Avatar

open Loop

/-! ### Slices -/

section Slices

variable {bytes m rest : List UInt8} {pos a b : ℕ} {x y : UInt8}

theorem add_of_lt (h : a + b < 2 ^ 64) : add a b = some (a + b) := if_pos h

theorem lt_of_drop (h : bytes.drop pos = x :: rest) : pos < bytes.length := by
  have hlen := congrArg List.length h
  rw [List.length_drop, List.length_cons] at hlen
  omega

theorem drop_add (h : bytes.drop pos = m ++ rest) : bytes.drop (pos + m.length) = rest := by
  rw [← List.drop_drop, h, List.drop_left]

theorem drop_succ (h : bytes.drop pos = x :: rest) : bytes.drop (pos + 1) = rest := drop_add (m := [x]) h

theorem get_of_drop (hpos : pos ≤ bytes.length) (h : bytes.drop pos = m ++ rest) :
    get bytes pos (pos + m.length) = some m := by
  have hlen := congrArg List.length h
  rw [List.length_drop, List.length_append] at hlen
  rw [get, if_pos ⟨Nat.le_add_right _ _, by omega⟩, ← List.take_drop, h, List.take_left]

theorem get_pair (h : bytes.drop pos = x :: y :: rest) : get bytes pos (pos + 2) = some [x, y] :=
  get_of_drop (m := [x, y]) (Nat.le_of_lt (lt_of_drop h)) h

theorem get_short (h : bytes.length < b) : get bytes a b = none := if_neg fun hget => absurd hget.2 (Nat.not_le.mpr h)

theorem getElem?_of_drop (h : bytes.drop pos = x :: rest) : bytes[pos]? = some x := by
  rw [← Nat.add_zero pos, ← List.getElem?_drop, h, List.getElem?_cons_zero]

end Slices

theorem fromBeBytes_lt (high low : UInt8) : fromBeBytes high low < 2 ^ 16 := by
  have hhigh := high.toNat_lt
  have hlow := low.toNat_lt
  unfold fromBeBytes
  omega

/-- A number of 16 bits, its high byte first. -/
def toBeBytes (n : ℕ) : List UInt8 := [UInt8.ofNat (n / 256), UInt8.ofNat (n % 256)]

theorem fromBeBytes_toBeBytes {n : ℕ} (h : n < 2 ^ 16) :
    fromBeBytes (UInt8.ofNat (n / 256)) (UInt8.ofNat (n % 256)) = n := by
  rw [fromBeBytes, UInt8.toNat_ofNat', UInt8.toNat_ofNat']
  omega

theorem toBeBytes_fromBeBytes (high low : UInt8) : toBeBytes (fromBeBytes high low) = [high, low] := by
  have hhigh := high.toNat_lt
  have hlow := low.toNat_lt
  have hdiv : fromBeBytes high low / 256 = high.toNat := by unfold fromBeBytes; omega
  have hmod : fromBeBytes high low % 256 = low.toNat := by unfold fromBeBytes; omega
  rw [toBeBytes, hdiv, hmod, UInt8.ofNat_toNat, UInt8.ofNat_toNat]

/-! ### Pieces -/

/-- What a marker begins. -/
inductive Part where
  | standalone (code : UInt8)
  | segment (code : UInt8) (payload : List UInt8)

/-- A marker, the fill bytes before it and its segment. -/
structure Piece where
  fills : ℕ
  part : Part

def fillBytes (fills : ℕ) : List UInt8 := List.replicate fills 0xFF

def Part.bytes : Part → List UInt8
  | .standalone code => [0xFF, code]
  | .segment code payload => [0xFF, code] ++ toBeBytes (payload.length + 2) ++ payload

def Piece.bytes (piece : Piece) : List UInt8 := fillBytes piece.fills ++ piece.part.bytes

/-- A piece less its APP2 segment, if it is one. -/
def Piece.kept (piece : Piece) : List UInt8 :=
  fillBytes piece.fills ++ match piece.part with
    | .segment 0xE2 _ => []
    | part => part.bytes

/-- The markers a length follows, but those that end the header. -/
def Sized (code : UInt8) : Prop := code ≠ 0xFF ∧ standalone code = false ∧ code ≠ 0xD9 ∧ code ≠ 0xDA

/-- A standalone marker stands alone; a segment has a length of 16 bits. -/
def Part.Wf : Part → Prop
  | .standalone code => Home.Avatar.standalone code = true
  | .segment code payload => Sized code ∧ payload.length + 2 < 2 ^ 16

def soi : List UInt8 := [0xFF, 0xD8]

/-- A file read marker by marker up to its first SOS, or up to an EOI before any: what stands there is `rest`. -/
structure Header (bytes : List UInt8) (pieces : List Piece) (rest : List UInt8) : Prop where
  eq : bytes = soi ++ pieces.flatMap Piece.bytes ++ rest
  wf : ∀ piece ∈ pieces, piece.part.Wf
  ends : ∃ fills code tail, (code = 0xD9 ∨ code = 0xDA) ∧ rest = fillBytes fills ++ 0xFF :: code :: tail

/-! ### A marker -/

section Marker

variable {bytes rest : List UInt8} {pos fills : ℕ} {code x : UInt8}

theorem markerTurn_of_pair (hfits : bytes.length < 2 ^ 63) (h : bytes.drop pos = x :: code :: rest) :
    markerTurn bytes pos =
      if x ≠ 0xFF then some (.done (.error .Unreadable))
      else if code = 0xFF then some (.again (pos + 1)) else some (.done (.ok (code, pos))) := by
  have hpos := lt_of_drop h
  have htwo := get_pair h
  simp [markerTurn, add_of_lt (a := pos) (b := 2) (by omega), add_of_lt (a := pos) (b := 1) (by omega), htwo]

theorem markerTurn_short (hfits : bytes.length < 2 ^ 63) (hpos : pos ≤ bytes.length) (h : bytes.length < pos + 2) :
    markerTurn bytes pos = some (.done (.error .Unreadable)) := by
  simp [markerTurn, add_of_lt (a := pos) (b := 2) (by omega), get_short h]

theorem drop_pair_or_short (pos : ℕ) (bytes : List UInt8) :
    bytes.length < pos + 2 ∨ ∃ x code rest, bytes.drop pos = x :: code :: rest := by
  rcases h : bytes.drop pos with _ | ⟨x, _ | ⟨code, rest⟩⟩
  · have hlen := congrArg List.length h
    rw [List.length_drop, List.length_nil] at hlen
    exact .inl (by omega)
  · have hlen := congrArg List.length h
    rw [List.length_drop, List.length_singleton] at hlen
    exact .inl (by omega)
  · exact .inr ⟨x, code, rest, rfl⟩

/-- Past the fill bytes is a marker, or the file is not read further. -/
theorem markerFrom_total (hfits : bytes.length < 2 ^ 63) (hpos : pos ≤ bytes.length) :
    ∃ r, markerFrom bytes pos = some r ∧ (r = .error .Unreadable ∨
      ∃ fills code rest, r = .ok (code, pos + fills) ∧ code ≠ 0xFF ∧
        bytes.drop pos = fillBytes fills ++ 0xFF :: code :: rest) := by
  refine run_total (I := fun p => p ≤ bytes.length ∧ ∃ fills, p = pos + fills ∧
    bytes.drop pos = fillBytes fills ++ bytes.drop p) (V := fun p => bytes.length - p) ?_
    ⟨hpos, 0, rfl, rfl⟩ (by omega)
  rintro p ⟨hp, fills, rfl, hdrop⟩
  obtain hshort | ⟨x, code, rest, hpair⟩ := drop_pair_or_short (pos + fills) bytes
  · exact .inr ⟨_, markerTurn_short hfits hp hshort, .inl rfl⟩
  · rw [markerTurn_of_pair hfits hpair]
    by_cases hx : x = 0xFF
    · subst hx
      by_cases hcode : code = 0xFF
      · subst hcode
        have hlt := lt_of_drop hpair
        refine .inl ⟨pos + fills + 1, by simp, ⟨hlt, fills + 1, rfl, ?_⟩, by omega⟩
        rw [hdrop, drop_succ hpair, hpair, fillBytes, fillBytes, List.replicate_succ', List.append_assoc]
        rfl
      · exact .inr ⟨_, by simp [hcode], .inr ⟨fills, code, rest, rfl, hcode, hdrop.trans (hpair ▸ rfl)⟩⟩
    · exact .inr ⟨_, by simp [hx], .inl rfl⟩

theorem markerFrom_eq (hfits : bytes.length < 2 ^ 63) (hcode : code ≠ 0xFF)
    (h : bytes.drop pos = fillBytes fills ++ 0xFF :: code :: rest) :
    markerFrom bytes pos = some (.ok (code, pos + fills)) := by
  have hpos : pos ≤ bytes.length := by
    have hlen := congrArg List.length h
    simp at hlen
    omega
  obtain ⟨r, hr, -⟩ := markerFrom_total hfits hpos
  have hends : Ends (markerTurn bytes) pos (.ok (code, pos + fills)) := by
    clear hr hpos
    induction fills generalizing pos with
    | zero => exact .done (by rw [markerTurn_of_pair hfits h]; simp [hcode])
    | succ fills ih =>
      have hfill : ∃ y tail, bytes.drop pos = 0xFF :: y :: tail ∧ y = 0xFF := by
        cases fills with
        | zero => exact ⟨0xFF, _, h, rfl⟩
        | succ fills => exact ⟨0xFF, _, h, rfl⟩
      obtain ⟨y, tail, hpair, rfl⟩ := hfill
      refine .again (t := pos + 1) (by rw [markerTurn_of_pair hfits hpair]; simp) ?_
      rw [show pos + (fills + 1) = pos + 1 + fills by omega]
      exact ih (drop_succ h)
  rw [hr, (ends_of_run hr).unique hends]

end Marker

/-! ### Past the first scan -/

section Past

variable {bytes rest : List UInt8} {pos : ℕ} {x y high low : UInt8}

theorem iccTurn_short (hpos : pos < 2 ^ 63 + 2 ^ 17) (h : bytes.length < pos + 2) :
    iccTurn bytes pos = some (.done false) := by
  have hle : bytes.length ≤ pos + 1 := by omega
  simp [iccTurn, add_of_lt (a := pos) (b := 1) (by omega), hle]

/-- Neither a byte of data nor a marker with no length is anything but passed. -/
theorem iccTurn_pass (hfits : bytes.length < 2 ^ 63) (h : bytes.drop pos = x :: y :: rest)
    (hpass : x ≠ 0xFF ∨ y = 0x00 ∨ y = 0xFF ∨ standalone y = true) : iccTurn bytes pos = some (.again (pos + 1)) := by
  have hlt := lt_of_drop (drop_succ h)
  have hnot : ¬bytes.length ≤ pos + 1 := by omega
  by_cases hx : x = 0xFF
  · have hy := hpass.resolve_left (not_not_intro hx)
    simp [iccTurn, add_of_lt (a := pos) (b := 1) (by omega), hnot, getElem?_of_drop h,
      getElem?_of_drop (drop_succ h), hx, hy]
  · simp [iccTurn, add_of_lt (a := pos) (b := 1) (by omega), hnot, getElem?_of_drop h, hx]

theorem iccTurn_marker (hfits : bytes.length < 2 ^ 63) (h : bytes.drop pos = 0xFF :: y :: rest)
    (hy : ¬(y = 0x00 ∨ y = 0xFF ∨ standalone y = true)) :
    iccTurn bytes pos =
      if y = 0xD9 then some (.done false)
      else if y = 0xE2 then some (.done true)
      else if rest.length < 2 then some (.done false)
      else some (.again (pos + (2 + fromBeBytes (rest.getD 0 0) (rest.getD 1 0)))) := by
  have hlt := lt_of_drop (drop_succ h)
  have hnot : ¬bytes.length ≤ pos + 1 := by omega
  have htwo : bytes.drop (pos + 2) = rest := drop_succ (drop_succ h)
  have hlen := congrArg List.length htwo
  rw [List.length_drop] at hlen
  simp only [iccTurn, add_of_lt (a := pos) (b := 1) (by omega), add_of_lt (a := pos) (b := 2) (by omega),
    add_of_lt (a := pos) (b := 4) (by omega), hnot, getElem?_of_drop h, getElem?_of_drop (drop_succ h), hy,
    Option.bind_eq_bind, Option.bind_some, Option.pure_def, if_false, ne_eq, not_true_eq_false]
  by_cases heoi : y = 0xD9
  · rw [if_pos heoi, if_pos heoi]
  rw [if_neg heoi, if_neg heoi]
  by_cases happ2 : y = 0xE2
  · rw [if_pos happ2, if_pos happ2]
  rw [if_neg happ2, if_neg happ2]
  rcases rest with _ | ⟨high, _ | ⟨low, rest⟩⟩
  · rw [get_short (by simp at hlen; omega)]
    rfl
  · rw [get_short (by simp at hlen; omega)]
    rfl
  · rw [get_pair htwo]
    have hbe := fromBeBytes_lt high low
    simp [add_of_lt (a := pos) (b := 2 + fromBeBytes high low) (by omega)]

theorem iccPast_total (hfits : bytes.length < 2 ^ 63) (hpos : pos ≤ bytes.length) :
    ∃ past, iccPast bytes pos = some past := by
  suffices hrun : ∃ past, iccPast bytes pos = some past ∧ True by
    obtain ⟨past, hpast, -⟩ := hrun
    exact ⟨past, hpast⟩
  refine run_total (I := fun p => p < bytes.length + 2 ^ 17) (V := fun p => bytes.length - p) ?_ (by omega) (by omega)
  intro p hp
  obtain hshort | ⟨x, y, rest, hpair⟩ := drop_pair_or_short p bytes
  · exact .inr ⟨_, iccTurn_short (by omega) hshort, trivial⟩
  have hlt := lt_of_drop hpair
  by_cases hpass : x ≠ 0xFF ∨ y = 0x00 ∨ y = 0xFF ∨ standalone y = true
  · exact .inl ⟨_, iccTurn_pass hfits hpair hpass, by omega, by omega⟩
  · rw [not_or, not_not] at hpass
    obtain ⟨rfl, hy⟩ := hpass
    rw [iccTurn_marker hfits hpair hy]
    have hbe := fromBeBytes_lt (rest.getD 0 0) (rest.getD 1 0)
    split_ifs
    · exact .inr ⟨_, rfl, trivial⟩
    · exact .inr ⟨_, rfl, trivial⟩
    · exact .inr ⟨_, rfl, trivial⟩
    · exact .inl ⟨_, rfl, by omega, by omega⟩

end Past

/-! ### Up to the first scan -/

/-- A piece's frame, if it is a SOF. -/
def Piece.sof (piece : Piece) : Option (Except AvatarError JpegFrame) :=
  match piece.part with
  | .standalone _ => none
  | .segment code payload => if isSof code then some (parseSof code payload) else none

/-- The frame known once a piece is passed. -/
def Piece.frameAfter (piece : Piece) (frame : Option JpegFrame) : Option JpegFrame :=
  match piece.sof with
  | some (.ok sof) => some sof
  | _ => frame

/-- The walk has kept `kept` of what it passed, and `rest` is ahead. -/
structure Walk.At (walk : Walk) (bytes kept rest : List UInt8) : Prop where
  pos_le : walk.pos ≤ bytes.length
  from_le : walk.keptFrom ≤ walk.pos
  kept : walk.kept.flatten ++ (bytes.take walk.pos).drop walk.keptFrom = kept
  rest : bytes.drop walk.pos = rest

section Walked

variable {bytes kept m rest : List UInt8} {walk : Walk} {piece : Piece} {code : UInt8}
  {payload : List UInt8} {pos fills : ℕ}

theorem length_of_drop (hpos : pos ≤ bytes.length) (h : bytes.drop pos = m ++ rest) :
    pos + m.length + rest.length = bytes.length := by
  have hlen := congrArg List.length h
  rw [List.length_drop, List.length_append] at hlen
  omega

/-- What is passed is kept. -/
theorem Walk.At.pass (frame : Option JpegFrame) (hat : walk.At bytes kept (m ++ rest)) :
    Walk.At { walk with frame := frame, pos := walk.pos + m.length } bytes (kept ++ m) rest := by
  have hlen := length_of_drop hat.pos_le hat.rest
  refine ⟨by simp only; omega, Nat.le_add_right_of_le hat.from_le, ?_, drop_add hat.rest⟩
  have htake : bytes.take (walk.pos + m.length) = bytes.take walk.pos ++ m := by
    rw [List.take_add, hat.rest, List.take_left]
  have hle : walk.keptFrom ≤ (bytes.take walk.pos).length := by
    rw [List.length_take]
    exact Nat.le_min.mpr ⟨hat.from_le, Nat.le_trans hat.from_le hat.pos_le⟩
  rw [htake, List.drop_append_of_le_length hle, ← List.append_assoc, hat.kept]

/-- What is left out is not. -/
theorem Walk.At.leave (hat : walk.At bytes kept (m ++ rest)) :
    get bytes walk.keptFrom walk.pos = some ((bytes.take walk.pos).drop walk.keptFrom) ∧
      Walk.At { walk with
        kept := walk.kept ++ [(bytes.take walk.pos).drop walk.keptFrom]
        keptFrom := walk.pos + m.length
        pos := walk.pos + m.length } bytes kept rest := by
  have hlen := length_of_drop hat.pos_le hat.rest
  refine ⟨if_pos ⟨hat.from_le, hat.pos_le⟩, by simp only; omega, Nat.le_refl _, ?_, drop_add hat.rest⟩
  have hnil : (bytes.take (walk.pos + m.length)).drop (walk.pos + m.length) = [] :=
    List.drop_eq_nil_of_le (List.length_take_le _ _)
  rw [List.flatten_append, List.flatten_singleton, hnil, List.append_nil, hat.kept]

theorem segmentEnd_eq (hfits : bytes.length < 2 ^ 63) (hpayload : payload.length + 2 < 2 ^ 16)
    (h : bytes.drop pos = (Part.segment code payload).bytes ++ rest) :
    segmentEnd bytes pos = some (.ok (pos + (Part.segment code payload).bytes.length)) := by
  have hlen := length_of_drop (Nat.le_of_lt (lt_of_drop h)) h
  have htwo : bytes.drop (pos + 2) = toBeBytes (payload.length + 2) ++ payload ++ rest :=
    drop_add (m := [0xFF, code]) (by rw [h, Part.bytes]; simp)
  have hlength : (Part.segment code payload).bytes.length = payload.length + 4 := by simp [Part.bytes, toBeBytes]
  rw [hlength] at hlen
  have hpair := get_pair (htwo.trans (by rw [toBeBytes]; rfl))
  simp only [segmentEnd, add_of_lt (a := pos) (b := 2) (by omega), add_of_lt (a := pos) (b := 4) (by omega),
    hpair, fromBeBytes_toBeBytes hpayload, Option.bind_eq_bind, Option.bind_some,
    add_of_lt (a := pos + 2) (b := payload.length + 2) (by omega)]
  have hstop : pos + 2 + (payload.length + 2) = pos + (payload.length + 4) := by omega
  rw [if_neg (by omega), hlength, Option.pure_def, hstop]

/-- After a marker is its segment, or the file is not read further. -/
theorem segmentEnd_total (hfits : bytes.length < 2 ^ 63) (h : bytes.drop pos = 0xFF :: code :: rest) :
    segmentEnd bytes pos = some (.error .Unreadable) ∨ ∃ payload rest', payload.length + 2 < 2 ^ 16 ∧
      bytes.drop pos = (Part.segment code payload).bytes ++ rest' := by
  have hlt := lt_of_drop h
  have htwo : bytes.drop (pos + 2) = rest := drop_succ (drop_succ h)
  obtain hshort | ⟨high, low, tail, hpair⟩ := drop_pair_or_short (pos + 2) bytes
  · left
    simp [segmentEnd, add_of_lt (a := pos) (b := 2) (by omega), add_of_lt (a := pos) (b := 4) (by omega),
      get_short (a := pos + 2) hshort]
  have hbe := fromBeBytes_lt high low
  have htail := congrArg List.length hpair
  rw [List.length_drop, List.length_cons, List.length_cons] at htail
  by_cases hbad : fromBeBytes high low < 2 ∨ bytes.length < pos + 2 + fromBeBytes high low
  · left
    rw [segmentEnd, add_of_lt (a := pos) (b := 2) (by omega), add_of_lt (a := pos) (b := 4) (by omega)]
    simp only [Option.bind_eq_bind, Option.bind_some, get_pair hpair,
      add_of_lt (a := pos + 2) (b := fromBeBytes high low) (by omega), if_pos hbad, pure]
  · right
    rw [not_or, Nat.not_lt, Nat.not_lt] at hbad
    have hpayload : (tail.take (fromBeBytes high low - 2)).length + 2 = fromBeBytes high low := by
      rw [List.length_take]
      omega
    refine ⟨tail.take (fromBeBytes high low - 2), tail.drop (fromBeBytes high low - 2), by omega, ?_⟩
    rw [Part.bytes, hpayload, toBeBytes_fromBeBytes, h, ← htwo, hpair]
    simp

theorem parseSof_error {e : AvatarError} (h : parseSof code payload = .error e) : e = .Unreadable := by
  simp only [parseSof] at h
  repeat' split at h
  all_goals cases h <;> rfl

theorem Part.length_segment : (Part.segment code payload).bytes.length = payload.length + 4 := by
  simp [Part.bytes, toBeBytes]

/-- What the walk does with a segment. -/
theorem segmentTurn_eq (hfits : bytes.length < 2 ^ 63) (hat : walk.At bytes kept (piece.bytes ++ rest))
    (hpart : piece.part = .segment code payload) :
    (∃ next, segmentTurn bytes walk code (walk.pos + piece.fills) (walk.pos + piece.bytes.length) = some (.again next) ∧
      next.At bytes (kept ++ piece.kept) rest ∧ next.frame = piece.frameAfter walk.frame ∧
      next.pos = walk.pos + piece.bytes.length ∧ piece.sof ≠ some (.error .Unreadable)) ∨
    (segmentTurn bytes walk code (walk.pos + piece.fills) (walk.pos + piece.bytes.length) =
      some (.done (.error .Unreadable)) ∧ piece.sof = some (.error .Unreadable)) := by
  have hpiece : piece.bytes = fillBytes piece.fills ++ (Part.segment code payload).bytes := by rw [Piece.bytes, hpart]
  have hlength : piece.bytes.length = piece.fills + (payload.length + 4) := by
    rw [hpiece, List.length_append, Part.length_segment, fillBytes, List.length_replicate]
  have hlen := length_of_drop hat.pos_le hat.rest
  by_cases happ2 : code = 0xE2
  · subst happ2
    have hsof : piece.sof = none := by rw [Piece.sof, hpart]; rfl
    have hkept : piece.kept = fillBytes piece.fills := by
      rw [Piece.kept, hpart]
      exact List.append_nil _
    have hfilled : Walk.At { walk with frame := walk.frame, pos := walk.pos + (fillBytes piece.fills).length } bytes
        (kept ++ fillBytes piece.fills) ((Part.segment 0xE2 payload).bytes ++ rest) :=
      Walk.At.pass walk.frame (by rwa [hpiece, List.append_assoc] at hat)
    obtain ⟨hget, hleft⟩ := hfilled.leave
    have hfills : (fillBytes piece.fills).length = piece.fills := List.length_replicate
    simp only [hfills, Part.length_segment] at hget hleft
    refine .inl ⟨_, ?_, hkept ▸ hleft, by rw [Piece.frameAfter, hsof], by rw [hlength]; simp only; omega, by simp [hsof]⟩
    have hstop : walk.pos + piece.bytes.length = walk.pos + piece.fills + (payload.length + 4) := by omega
    simp only [segmentTurn, if_true, hget, Option.bind_eq_bind, Option.bind_some, Option.pure_def, hstop]
  have hkept : piece.kept = piece.bytes := by
    rw [Piece.kept, Piece.bytes, hpart]
    split
    · rename_i heq
      cases heq
      exact absurd rfl happ2
    · rfl
  rw [hkept]
  by_cases hsofCode : isSof code = true
  · have hsof : piece.sof = some (parseSof code payload) := by rw [Piece.sof, hpart]; exact if_pos hsofCode
    have hdrop : bytes.drop (walk.pos + piece.fills + 4) = payload ++ rest := by
      have hparts : bytes.drop walk.pos =
          (fillBytes piece.fills ++ ([0xFF, code] ++ toBeBytes (payload.length + 2))) ++ (payload ++ rest) := by
        rw [hat.rest, hpiece, Part.bytes]
        simp only [List.append_assoc]
      have hdrop := drop_add hparts
      rwa [List.length_append, fillBytes, List.length_replicate, ← Nat.add_assoc] at hdrop
    have hget := get_of_drop (by omega) hdrop
    have hstop : walk.pos + piece.bytes.length = walk.pos + piece.fills + 4 + payload.length := by omega
    have hadd := add_of_lt (a := walk.pos + piece.fills) (b := 4) (by omega)
    cases hparse : parseSof code payload with
    | error e =>
      obtain rfl := parseSof_error hparse
      refine .inr ⟨?_, by rw [hsof, hparse]⟩
      simp [segmentTurn, happ2, hsofCode, hadd, hstop, hget, hparse]
    | ok frame =>
      refine .inl ⟨_, ?_, hat.pass (some frame), ?_, rfl, by simp [hsof, hparse]⟩
      · simp [segmentTurn, happ2, hsofCode, hadd, hstop, hget, hparse]
      · rw [Piece.frameAfter, hsof, hparse]
  · have hsof : piece.sof = none := by rw [Piece.sof, hpart]; exact if_neg hsofCode
    refine .inl ⟨_, ?_, hat.pass walk.frame, by rw [Piece.frameAfter, hsof], rfl, by simp [hsof]⟩
    simp [segmentTurn, happ2, hsofCode]

/-- A turn passes a piece, or stops at a SOF that declares no frame. -/
theorem walkTurn_piece (hfits : bytes.length < 2 ^ 63) (hat : walk.At bytes kept (piece.bytes ++ rest))
    (hwf : piece.part.Wf) :
    (∃ next, walkTurn bytes walk = some (.again next) ∧ next.At bytes (kept ++ piece.kept) rest ∧
      next.frame = piece.frameAfter walk.frame ∧ walk.pos < next.pos ∧ piece.sof ≠ some (.error .Unreadable)) ∨
    (walkTurn bytes walk = some (.done (.error .Unreadable)) ∧ piece.sof = some (.error .Unreadable)) := by
  have hlen := length_of_drop hat.pos_le hat.rest
  cases hpart : piece.part with
  | standalone code =>
    have hcode : standalone code = true := by rwa [hpart] at hwf
    have hne : code ≠ 0xFF := by rintro rfl; exact absurd hcode (by decide)
    have hpiece : piece.bytes = fillBytes piece.fills ++ [0xFF, code] := by rw [Piece.bytes, hpart]; rfl
    have hlength : piece.bytes.length = piece.fills + 2 := by simp [hpiece, fillBytes]
    have hfilled : bytes.drop walk.pos = fillBytes piece.fills ++ 0xFF :: code :: rest := by
      rw [hat.rest, hpiece, List.append_assoc]
      rfl
    have hmarker := markerFrom_eq hfits hne hfilled
    have hkept : piece.kept = piece.bytes := by rw [Piece.kept, Piece.bytes, hpart]
    have hsof : piece.sof = none := by rw [Piece.sof, hpart]
    have hadd := add_of_lt (a := walk.pos + piece.fills) (b := 2) (by omega)
    have hturn : walkTurn bytes walk =
        some (.again { walk with frame := walk.frame, pos := walk.pos + piece.bytes.length }) := by
      simp [walkTurn, hmarker, hcode, hadd, hlength, Nat.add_assoc]
    rw [hkept]
    exact .inl ⟨_, hturn, hat.pass walk.frame, by rw [Piece.frameAfter, hsof], by simp only; omega, by simp [hsof]⟩
  | segment code payload =>
    obtain ⟨⟨hne, hnot, heoi, hsos⟩, hpayload⟩ : Sized code ∧ payload.length + 2 < 2 ^ 16 := by rwa [hpart] at hwf
    have hpiece : piece.bytes = fillBytes piece.fills ++ (Part.segment code payload).bytes := by rw [Piece.bytes, hpart]
    have hlength : piece.bytes.length = piece.fills + (payload.length + 4) := by
      rw [hpiece, List.length_append, Part.length_segment, fillBytes, List.length_replicate]
    have hfilled : bytes.drop walk.pos = fillBytes piece.fills ++ ((Part.segment code payload).bytes ++ rest) := by
      rw [hat.rest, hpiece, List.append_assoc]
    have hmarker := markerFrom_eq hfits hne hfilled
    have hdrop : bytes.drop (walk.pos + piece.fills) = (Part.segment code payload).bytes ++ rest := by
      have hdrop := drop_add hfilled
      rwa [fillBytes, List.length_replicate] at hdrop
    have hstop := segmentEnd_eq hfits hpayload hdrop
    have hturn : walkTurn bytes walk =
        segmentTurn bytes walk code (walk.pos + piece.fills) (walk.pos + piece.bytes.length) := by
      have hsegment : (Part.segment code payload).bytes.length = payload.length + 4 := Part.length_segment
      rw [hlength, ← Nat.add_assoc, ← hsegment]
      simp [walkTurn, hmarker, hnot, heoi, hsos, hstop]
    rw [hturn]
    obtain ⟨next, hagain, hnext, hframe, hpos, hsof⟩ | hrefused := segmentTurn_eq hfits hat hpart
    · exact .inl ⟨next, hagain, hnext, hframe, by omega, hsof⟩
    · exact .inr hrefused

/-- Every turn passes a piece, refuses the file or ends the header. -/
theorem walkTurn_total (hfits : bytes.length < 2 ^ 63) (hat : walk.At bytes kept rest) :
    (∃ piece rest' next, rest = Piece.bytes piece ++ rest' ∧ piece.part.Wf ∧ walkTurn bytes walk = some (.again next) ∧
      next.At bytes (kept ++ piece.kept) rest' ∧ walk.pos < next.pos) ∨
    (∃ e, walkTurn bytes walk = some (.done (.error e))) ∨
    (walkTurn bytes walk = some (.done (.ok walk)) ∧
      ∃ fills code tail, (code = 0xD9 ∨ code = 0xDA) ∧ rest = fillBytes fills ++ 0xFF :: code :: tail) := by
  have hpass : ∀ piece rest', rest = Piece.bytes piece ++ rest' → piece.part.Wf →
      (∃ piece rest' next, rest = Piece.bytes piece ++ rest' ∧ piece.part.Wf ∧
        walkTurn bytes walk = some (.again next) ∧ next.At bytes (kept ++ piece.kept) rest' ∧ walk.pos < next.pos) ∨
      ∃ e, walkTurn bytes walk = some (.done (.error e)) := by
    intro piece rest' hrest hwf
    obtain ⟨next, hagain, hnext, -, hpos, -⟩ | ⟨hrefused, -⟩ := walkTurn_piece hfits (hrest ▸ hat) hwf
    · exact .inl ⟨piece, rest', next, hrest, hwf, hagain, hnext, hpos⟩
    · exact .inr ⟨_, hrefused⟩
  rw [← or_assoc]
  obtain ⟨r, hmarker, rfl | ⟨fills, code, tail, rfl, hne, hdrop⟩⟩ := markerFrom_total hfits hat.pos_le
  · exact .inl (.inr ⟨.Unreadable, by simp [walkTurn, hmarker]⟩)
  have hrest : rest = fillBytes fills ++ 0xFF :: code :: tail := hat.rest.symm.trans hdrop
  have hcode : bytes.drop (walk.pos + fills) = 0xFF :: code :: tail := by
    have hcode := drop_add hdrop
    rwa [fillBytes, List.length_replicate] at hcode
  by_cases halone : standalone code = true
  · refine .inl (hpass ⟨fills, .standalone code⟩ tail ?_ halone)
    rw [hrest, Piece.bytes, List.append_assoc]
    rfl
  by_cases heoi : code = 0xD9
  · subst heoi
    exact .inr ⟨by simp [walkTurn, hmarker, halone], fills, _, tail, .inl rfl, hrest⟩
  by_cases hsos : code = 0xDA
  · obtain ⟨past, hpast⟩ := iccPast_total hfits (Nat.le_of_lt (lt_of_drop hcode))
    subst hsos
    cases past with
    | true => exact .inl (.inr ⟨.ImageTooLarge, by simp [walkTurn, hmarker, halone, hpast]⟩)
    | false => exact .inr ⟨by simp [walkTurn, hmarker, halone, hpast], fills, _, tail, .inr rfl, hrest⟩
  obtain hbad | ⟨payload, rest', hpayload, hsegment⟩ := segmentEnd_total hfits hcode
  · exact .inl (.inr ⟨.Unreadable, by simp [walkTurn, hmarker, halone, heoi, hsos, hbad]⟩)
  · refine .inl (hpass ⟨fills, .segment code payload⟩ rest' ?_
      ⟨⟨hne, Bool.eq_false_iff.mpr halone, heoi, hsos⟩, hpayload⟩)
    rw [hrest, ← hcode, hsegment, Piece.bytes, List.append_assoc]

/-- The variables of the walk before its first turn. -/
def startWalk : Walk := ⟨[], 0, none, 2⟩

theorem startWalk_at (h : bytes = soi ++ rest) : startWalk.At bytes soi rest := by
  subst h
  exact ⟨by simp [startWalk, soi], Nat.zero_le _, rfl, rfl⟩

/-- The walk of any file comes to an end; where it is not refused the file has a header. -/
theorem walk_total (hfits : bytes.length < 2 ^ 63) (h : bytes = soi ++ rest) :
    ∃ r, run (walkTurn bytes) (bytes.length + 1) startWalk = some r ∧ ∀ out, r = .ok out →
      (∃ kept rest, out.At bytes kept rest) ∧ ∃ pieces rest, Header bytes pieces rest := by
  refine run_total (V := fun walk => bytes.length - walk.pos)
    (I := fun walk => ∃ pieces kept rest, walk.At bytes kept rest ∧
      (∀ piece ∈ pieces, piece.part.Wf) ∧ bytes = soi ++ pieces.flatMap Piece.bytes ++ rest)
    ?_ ⟨[], soi, rest, startWalk_at h, fun _ hp => absurd hp List.not_mem_nil, by simpa using h⟩ ?_
  · rintro walk ⟨pieces, kept, rest, hat, hwf, heq⟩
    obtain ⟨piece, rest', next, hrest, hpiece, hagain, hnext, hpos⟩ | ⟨e, herror⟩ | ⟨hdone, hends⟩ :=
      walkTurn_total hfits hat
    · refine .inl ⟨next, hagain, ⟨pieces ++ [piece], _, _, hnext, ?_, ?_⟩, ?_⟩
      · intro p hp
        obtain hp | hp := List.mem_append.mp hp
        · exact hwf p hp
        · exact List.mem_singleton.mp hp ▸ hpiece
      · rw [heq, hrest]
        simp
      · have hle := hnext.pos_le
        omega
    · exact .inr ⟨_, herror, fun _ hok => by cases hok⟩
    · refine .inr ⟨_, hdone, fun out hok => ?_⟩
      cases hok
      exact ⟨⟨kept, rest, hat⟩, pieces, rest, heq, hwf, hends⟩
  · have hlen := congrArg List.length h
    simp only [startWalk, List.length_append] at hlen ⊢
    omega

/-- The walk over pieces: all are passed, or one is a SOF that declares no frame. -/
theorem ends_pieces (hfits : bytes.length < 2 ^ 63) {pieces : List Piece} (hwf : ∀ piece ∈ pieces, piece.part.Wf)
    (hat : walk.At bytes kept (pieces.flatMap Piece.bytes ++ rest)) :
    (∃ next, next.At bytes (kept ++ pieces.flatMap Piece.kept) rest ∧
      next.frame = pieces.foldl (fun frame piece => piece.frameAfter frame) walk.frame ∧
      ∀ r, Ends (walkTurn bytes) walk r ↔ Ends (walkTurn bytes) next r) ∨
    ((∃ piece ∈ pieces, piece.sof = some (.error .Unreadable)) ∧
      ∀ r, Ends (walkTurn bytes) walk r ↔ r = .error .Unreadable) := by
  induction pieces generalizing walk kept with
  | nil => exact .inl ⟨walk, by simpa using hat, rfl, fun _ => Iff.rfl⟩
  | cons piece pieces ih =>
    rw [List.forall_mem_cons] at hwf
    rw [List.flatMap_cons, List.append_assoc] at hat
    obtain ⟨next, hagain, hnext, hframe, -, -⟩ | ⟨hrefused, hsof⟩ := walkTurn_piece hfits hat hwf.1
    · obtain ⟨last, hlast, hlastFrame, hends⟩ | ⟨⟨bad, hbad, hsof⟩, hends⟩ := ih hwf.2 hnext
      · refine .inl ⟨last, by simpa using hlast, by rw [hlastFrame, hframe, List.foldl_cons], fun r => ?_⟩
        rw [ends_again_iff hagain, hends]
      · exact .inr ⟨⟨bad, List.mem_cons_of_mem _ hbad, hsof⟩, fun r => by rw [ends_again_iff hagain, hends]⟩
    · exact .inr ⟨⟨piece, List.mem_cons_self, hsof⟩, fun r => ends_done_iff hrefused⟩

theorem ends_eoi (hfits : bytes.length < 2 ^ 63) (hat : walk.At bytes kept (fillBytes fills ++ 0xFF :: 0xD9 :: rest))
    (r : Except AvatarError Walk) : Ends (walkTurn bytes) walk r ↔ r = .ok walk := by
  have hmarker := markerFrom_eq hfits (by decide) hat.rest
  have halone : standalone 0xD9 = false := by decide
  exact ends_done_iff (by simp [walkTurn, hmarker, halone])

theorem ends_sos (hfits : bytes.length < 2 ^ 63) (hat : walk.At bytes kept (fillBytes fills ++ 0xFF :: 0xDA :: rest))
    {past : Bool} (hpast : iccPast bytes (walk.pos + fills) = some past) (r : Except AvatarError Walk) :
    Ends (walkTurn bytes) walk r ↔ r = if past then .error .ImageTooLarge else .ok walk := by
  have hmarker := markerFrom_eq hfits (by decide) hat.rest
  have halone : standalone 0xDA = false := by decide
  refine ends_done_iff ?_
  cases past <;> simp [walkTurn, hmarker, halone, hpast]

/-! ### The answer -/

theorem take_two (h : bytes = soi ++ rest) : bytes.take 2 = [0xFF, 0xD8] := by
  rw [h]
  rfl

theorem scan_of_error (hfits : bytes.length < 2 ^ 63) (h : bytes = soi ++ rest) {e : AvatarError}
    (hends : Ends (walkTurn bytes) startWalk (.error e)) : scanJpegHeader bytes = some (.error e) := by
  obtain ⟨r, hrun, -⟩ := walk_total hfits h
  obtain rfl := (ends_of_run hrun).unique hends
  have hrun' : run (walkTurn bytes) (bytes.length + 1) ⟨[], 0, none, 2⟩ = some (.error e) := hrun
  simp [scanJpegHeader, take_two h, hrun']

theorem scan_of_ok (hfits : bytes.length < 2 ^ 63) (h : bytes = soi ++ rest) {out : Walk}
    (hends : Ends (walkTurn bytes) startWalk (.ok out)) :
    scanJpegHeader bytes = some (out.frame.elim (.error .Unreadable) fun frame =>
      .ok ⟨out.kept ++ [bytes.drop out.keptFrom], frame⟩) := by
  obtain ⟨r, hrun, hout⟩ := walk_total hfits h
  obtain rfl := (ends_of_run hrun).unique hends
  obtain ⟨⟨kept, rest', hat⟩, -⟩ := hout out rfl
  have hget : get bytes out.keptFrom bytes.length = some (bytes.drop out.keptFrom) := by
    rw [get, if_pos ⟨Nat.le_trans hat.from_le hat.pos_le, Nat.le_refl _⟩, List.take_length]
  have hrun' : run (walkTurn bytes) (bytes.length + 1) ⟨[], 0, none, 2⟩ = some (.ok out) := hrun
  cases hframe : out.frame <;> simp [scanJpegHeader, take_two h, hrun', hget, hframe]

/-- What is kept is what the walk kept, then all the rest. -/
theorem Walk.At.flatten_kept (hat : walk.At bytes kept rest) :
    (walk.kept ++ [bytes.drop walk.keptFrom]).flatten = kept ++ rest := by
  have hle : walk.keptFrom ≤ (bytes.take walk.pos).length := by
    rw [List.length_take]
    exact Nat.le_min.mpr ⟨hat.from_le, Nat.le_trans hat.from_le hat.pos_le⟩
  have hsplit : bytes.drop walk.keptFrom = (bytes.take walk.pos).drop walk.keptFrom ++ rest := by
    rw [← hat.rest, ← List.drop_append_of_le_length hle, List.take_append_drop]
  rw [List.flatten_append, List.flatten_singleton, hsplit, ← List.append_assoc, hat.kept]

/-- The walk answers on any file. -/
theorem scan_total (hfits : bytes.length < 2 ^ 63) :
    ∃ answer, scanJpegHeader bytes = some answer ∧ ∀ header, answer = .ok header →
      ∃ pieces rest, Header bytes pieces rest := by
  by_cases hsoi : bytes.take 2 = [0xFF, 0xD8]
  · have heq : bytes = soi ++ bytes.drop 2 := by rw [soi, ← hsoi, List.take_append_drop]
    obtain ⟨r, hrun, hout⟩ := walk_total hfits heq
    cases r with
    | error e => exact ⟨_, scan_of_error hfits heq (ends_of_run hrun), fun _ hok => by cases hok⟩
    | ok out => exact ⟨_, scan_of_ok hfits heq (ends_of_run hrun), fun _ _ => (hout out rfl).2⟩
  · exact ⟨.error .Unreadable, by simp [scanJpegHeader, hsoi], fun _ hok => by cases hok⟩

/-- What is kept of a file is what its header says: all but its APP2 segments. -/
theorem scan_kept (hfits : bytes.length < 2 ^ 63) {header : JpegHeader} (hok : scanJpegHeader bytes = some (.ok header))
    {pieces : List Piece} (hheader : Header bytes pieces rest) :
    header.kept.flatten = soi ++ pieces.flatMap Piece.kept ++ rest := by
  obtain ⟨heq, hwf, fills, code, tail, hcode, hrest⟩ := hheader
  rw [List.append_assoc] at heq
  have hnot : ∀ e, ¬Ends (walkTurn bytes) startWalk (.error e) := fun e hends => by
    rw [scan_of_error hfits heq hends] at hok
    cases hok
  obtain ⟨next, hnext, -, hends⟩ | ⟨-, hends⟩ := ends_pieces hfits hwf (startWalk_at heq)
  · have hout : Ends (walkTurn bytes) startWalk (.ok next) := by
      rw [hends]
      rw [hrest] at hnext
      rcases hcode with rfl | rfl
      · exact (ends_eoi hfits hnext _).mpr rfl
      · have hdrop := drop_add hnext.rest
        rw [fillBytes, List.length_replicate] at hdrop
        obtain ⟨past, hpast⟩ := iccPast_total hfits (Nat.le_of_lt (lt_of_drop hdrop))
        have hsos := ends_sos hfits hnext hpast
        cases past with
        | true => exact absurd ((hends _).mpr ((hsos _).mpr rfl)) (hnot _)
        | false => exact (hsos _).mpr rfl
    rw [scan_of_ok hfits heq hout] at hok
    cases hframe : next.frame with
    | none => rw [hframe] at hok; cases hok
    | some frame =>
      rw [hframe] at hok
      cases hok
      exact hnext.flatten_kept
  · exact absurd ((hends _).mpr rfl) (hnot _)

end Walked

end Home.Avatar
