import ManageOurHome.PublicDestination.Destination

/-! @src apps/api/src/public_destination.rs | layer:proof | family:outbound

    The IANA special-purpose registries, against what the code takes for the public Internet. The ranges marked as not
    globally reachable are in tables; a range of IPv4 is refused when one of the code's holds it, a range of IPv6 when it
    is outside `2000::/3` or one of the three cut out of it. An address that carries an IPv4 one is judged as that.

        ::ffff:0:0/96   carries v4   judged as v4
        64:ff9b::/96    carries v4   judged as v4
        2002::/16       carries v4   judged as v4
        2000::/3        public, less 2001::/23, 2001:db8::/32, 3fff::/20 -/

namespace Home.PublicDestination

open Net

/-! ### The registries -/

/-- An IPv4 range marked as not globally reachable: the 6a44 relay anycast address, alone in a range no longer in use. -/
def RELAY_6A44 : Ipv4Addr × ℕ := (⟨192, 88, 99, 2⟩, 32)

/-- The other IPv4 ranges of the registry marked as not globally reachable. -/
def SPECIAL_V4 : List (Ipv4Addr × ℕ) :=
  [(⟨0, 0, 0, 0⟩, 8), (⟨0, 0, 0, 0⟩, 32), (⟨10, 0, 0, 0⟩, 8), (⟨100, 64, 0, 0⟩, 10), (⟨127, 0, 0, 0⟩, 8),
   (⟨169, 254, 0, 0⟩, 16), (⟨172, 16, 0, 0⟩, 12), (⟨192, 0, 0, 0⟩, 24), (⟨192, 0, 0, 0⟩, 29), (⟨192, 0, 0, 8⟩, 32),
   (⟨192, 0, 0, 170⟩, 32), (⟨192, 0, 0, 171⟩, 32), (⟨192, 0, 2, 0⟩, 24), (⟨192, 168, 0, 0⟩, 16), (⟨198, 18, 0, 0⟩, 15),
   (⟨198, 51, 100, 0⟩, 24), (⟨203, 0, 113, 0⟩, 24), (⟨240, 0, 0, 0⟩, 4), (⟨255, 255, 255, 255⟩, 32)]

/-- The range of the IPv4-mapped addresses, marked as not globally reachable. -/
def IPV4_MAPPED : Ipv6Addr × ℕ := (⟨[0, 0, 0, 0, 0, 0xffff, 0, 0], rfl⟩, 96)

/-- The other IPv6 ranges of the registry marked as not globally reachable. -/
def SPECIAL_V6 : List (Ipv6Addr × ℕ) :=
  [(⟨[0, 0, 0, 0, 0, 0, 0, 1], rfl⟩, 128), (⟨[0, 0, 0, 0, 0, 0, 0, 0], rfl⟩, 128),
   (⟨[0x64, 0xff9b, 1, 0, 0, 0, 0, 0], rfl⟩, 48), (⟨[0x100, 0, 0, 0, 0, 0, 0, 0], rfl⟩, 64),
   (⟨[0x100, 0, 0, 1, 0, 0, 0, 0], rfl⟩, 64), (⟨[0x2001, 0, 0, 0, 0, 0, 0, 0], rfl⟩, 23),
   (⟨[0x2001, 2, 0, 0, 0, 0, 0, 0], rfl⟩, 48), (⟨[0x2001, 0xdb8, 0, 0, 0, 0, 0, 0], rfl⟩, 32),
   (⟨[0x3fff, 0, 0, 0, 0, 0, 0, 0], rfl⟩, 20), (⟨[0x5f00, 0, 0, 0, 0, 0, 0, 0], rfl⟩, 16),
   (⟨[0xfc00, 0, 0, 0, 0, 0, 0, 0], rfl⟩, 7), (⟨[0xfe80, 0, 0, 0, 0, 0, 0, 0], rfl⟩, 10)]

/-- Whether an IPv4 address is in a range. -/
def InV4 (range : Ipv4Addr × ℕ) (ip : Ipv4Addr) : Prop :=
  ip.toNat / 2 ^ (32 - range.2) = range.1.toNat / 2 ^ (32 - range.2)

def InV6 (range : Ipv6Addr × ℕ) (ip : Ipv6Addr) : Prop :=
  ip.toNat / 2 ^ (128 - range.2) = range.1.toNat / 2 ^ (128 - range.2)

/-- `ip` is mapped from `v4`, or carries it through NAT64 or 6to4. -/
def Carries (ip : Ipv6Addr) (v4 : Ipv4Addr) : Prop :=
  ip.toNat = 0xffff * 2 ^ 32 + v4.toNat ∨ ip.toNat = 0x64ff9b * 2 ^ 96 + v4.toNat ∨
    ip.toNat / 2 ^ 80 = 0x2002 * 2 ^ 32 + v4.toNat

/-! ### IPv4 -/

/-- Two numbers under a mask of all but the last bits. -/
theorem and_mask_eq_iff {w : ℕ} (k : ℕ) (x y : BitVec w) :
    x &&& BitVec.allOnes w <<< k = y &&& BitVec.allOnes w <<< k ↔ x.toNat / 2 ^ k = y.toNat / 2 ^ k := by
  have hmask : ∀ (z : BitVec w) (i : ℕ), (z &&& BitVec.allOnes w <<< k).getLsbD i = (decide (k ≤ i) && z.getLsbD i) := by
    intro z i
    by_cases hi : i < w
    · simp only [BitVec.getLsbD_and, BitVec.getLsbD_shiftLeft, BitVec.getLsbD_allOnes, hi, decide_true, Bool.true_and,
        (by omega : i - k < w), Bool.and_comm]
      by_cases hk : i < k
      · simp [hk]
      · simp [hk, not_lt.mp hk]
    · simp [BitVec.getLsbD_of_ge _ _ (not_lt.mp hi)]
  rw [← Nat.shiftRight_eq_div_pow, ← Nat.shiftRight_eq_div_pow, ← BitVec.toNat_ushiftRight, ← BitVec.toNat_ushiftRight]
  constructor
  · intro h
    refine congrArg BitVec.toNat (BitVec.eq_of_getLsbD_eq fun i _ => ?_)
    have hbit := congrArg (fun z => z.getLsbD (k + i)) h
    simp only [hmask, Nat.le_add_right, decide_true, Bool.true_and] at hbit
    rw [BitVec.getLsbD_ushiftRight, BitVec.getLsbD_ushiftRight, hbit]
  · intro h
    have hshift := BitVec.eq_of_toNat_eq h
    refine BitVec.eq_of_getLsbD_eq fun i _ => ?_
    rw [hmask, hmask]
    by_cases hk : k ≤ i
    · have hbit := congrArg (fun z => z.getLsbD (i - k)) hshift
      simp only [BitVec.getLsbD_ushiftRight, Nat.add_sub_cancel' hk] at hbit
      rw [hbit]
    · simp [hk]

theorem toNat_lt_v4 (ip : Ipv4Addr) : ip.toNat < 2 ^ 32 := by
  have := ip.a.isLt
  have := ip.b.isLt
  have := ip.c.isLt
  have := ip.d.isLt
  rw [Ipv4Addr.toNat]
  omega

theorem toNat_bits (ip : Ipv4Addr) : (bits ip).toNat = ip.toNat := by
  rw [bits, BitVec.toNat_ofNat, Nat.mod_eq_of_lt (toNat_lt_v4 ip)]

/-- Public IPv4: in none of the code's ranges. -/
theorem isPublicV4_iff (ip : Ipv4Addr) : isPublicV4 ip = true ↔ ∀ range ∈ NON_PUBLIC_V4, ¬InV4 range ip := by
  simp only [isPublicV4, Bool.not_eq_true', List.any_eq_false, decide_eq_true_eq, and_mask_eq_iff, toNat_bits, InV4]

/-- A range within another. -/
theorem InV4.of_within {range range' : Ipv4Addr × ℕ} {ip : Ipv4Addr} (hlen : range'.2 ≤ range.2) (hmax : range.2 ≤ 32)
    (hwithin : InV4 range' range.1) (h : InV4 range ip) : InV4 range' ip := by
  have hsplit : 2 ^ (32 - range'.2) = 2 ^ (32 - range.2) * 2 ^ (range.2 - range'.2) := by
    rw [← pow_add]
    congr 1
    omega
  rw [InV4] at h hwithin ⊢
  rw [← hwithin, hsplit, ← Nat.div_div_eq_div_mul, ← Nat.div_div_eq_div_mul, h]

/-- Each range of the registry but one is within one of the code's. -/
theorem special_within : ∀ range ∈ SPECIAL_V4, range.2 ≤ 32 ∧ ∃ range' ∈ NON_PUBLIC_V4, range'.2 ≤ range.2 ∧
    range.1.toNat / 2 ^ (32 - range'.2) = range'.1.toNat / 2 ^ (32 - range'.2) := by
  decide

theorem public_v4 {ip : Ipv4Addr} (h : isPublicV4 ip = true) : ∀ range ∈ SPECIAL_V4, ¬InV4 range ip := by
  intro range hrange hin
  obtain ⟨hmax, range', hrange', hlen, hwithin⟩ := special_within range hrange
  exact (isPublicV4_iff ip).mp h range' hrange' (InV4.of_within hlen hmax hwithin hin)

/-! ### IPv6 -/

theorem toNat_embedded (hi lo : Fin 65536) : (embedded hi lo).toNat = hi * 65536 + lo := by
  simp only [embedded, Ipv4Addr.toNat]
  omega

/-- An IPv4 address is the number it is. -/
theorem v4_eq_of_toNat {ip ip' : Ipv4Addr} (h : ip.toNat = ip'.toNat) : ip = ip' := by
  obtain ⟨a, b, c, d⟩ := ip
  obtain ⟨a', b', c', d'⟩ := ip'
  simp only [Ipv4Addr.toNat] at h
  have ha : a = a' := Fin.ext (by omega)
  have hb : b = b' := Fin.ext (by omega)
  have hc : c = c' := Fin.ext (by omega)
  have hd : d = d' := Fin.ext (by omega)
  rw [ha, hb, hc, hd]

/-- Eight groups, and the number they make. -/
theorem exists_groups (ip : Ipv6Addr) : ∃ s0 s1 s2 s3 s4 s5 s6 s7 : Fin 65536,
    ip.segments = [s0, s1, s2, s3, s4, s5, s6, s7] ∧
      ip.toNat = s0 * 2 ^ 112 + s1 * 2 ^ 96 + s2 * 2 ^ 80 + s3 * 2 ^ 64 + s4 * 2 ^ 48 + s5 * 2 ^ 32 + s6 * 2 ^ 16 + s7 := by
  obtain ⟨segments, hlength⟩ := ip
  match segments, hlength with
  | [s0, s1, s2, s3, s4, s5, s6, s7], _ =>
    refine ⟨s0, s1, s2, s3, s4, s5, s6, s7, rfl, ?_⟩
    simp only [Ipv6Addr.toNat, List.foldl_cons, List.foldl_nil]
    omega

/-- What makes an IPv6 address public: the IPv4 one it carries, or its place in `2000::/3`. -/
inductive PublicV6 (ip : Ipv6Addr) : Prop where
  | mapped (v4 : Ipv4Addr) (h : ip.toNat = 0xffff * 2 ^ 32 + v4.toNat) (hpublic : isPublicV4 v4 = true)
  | nat64 (v4 : Ipv4Addr) (h : ip.toNat = 0x64ff9b * 2 ^ 96 + v4.toNat) (hpublic : isPublicV4 v4 = true)
  | sixToFour (v4 : Ipv4Addr) (h : ip.toNat / 2 ^ 80 = 0x2002 * 2 ^ 32 + v4.toNat) (hpublic : isPublicV4 v4 = true)
  | globalUnicast (h : ip.toNat / 2 ^ 125 = 1) (h6to4 : ip.toNat / 2 ^ 112 ≠ 0x2002)
      (hdocumentation : ip.toNat / 2 ^ 96 ≠ 0x20010db8 ∧ ip.toNat / 2 ^ 108 ≠ 0x3fff0)
      (hprotocol : ip.toNat / 2 ^ 105 ≠ 0x100080)

theorem toIpv4Mapped_eq_some {s0 s1 s2 s3 s4 s5 s6 s7 : Fin 65536} {v4 : Ipv4Addr}
    (h : toIpv4Mapped [s0, s1, s2, s3, s4, s5, s6, s7] = some v4) :
    s0 = 0 ∧ s1 = 0 ∧ s2 = 0 ∧ s3 = 0 ∧ s4 = 0 ∧ s5 = 65535 ∧ v4 = embedded s6 s7 := by
  unfold toIpv4Mapped at h
  split at h
  · rename_i ab cd heq
    simp only [List.cons.injEq, and_true] at heq
    obtain ⟨rfl, rfl, rfl, rfl, rfl, rfl, rfl, rfl⟩ := heq
    exact ⟨rfl, rfl, rfl, rfl, rfl, rfl, (Option.some.inj h).symm⟩
  · exact absurd h (by simp)

/-- The first three bits of a group. -/
theorem and_e000_iff (s : Fin 65536) : BitVec.ofNat 16 s &&& 0xe000#16 = 0x2000#16 ↔ s.val / 2 ^ 13 = 1 := by
  have hmask : (0xe000#16 : BitVec 16) = BitVec.allOnes 16 <<< 13 := by decide
  have hvalue : (0x2000#16 : BitVec 16) = 0x2000#16 &&& BitVec.allOnes 16 <<< 13 := by decide
  have hs : (BitVec.ofNat 16 s.val).toNat = s.val := by
    rw [BitVec.toNat_ofNat, Nat.mod_eq_of_lt s.isLt]
  rw [hmask, hvalue, and_mask_eq_iff, hs]
  rfl

theorem publicV6_of (ip : Ipv6Addr) (h : isPublicV6 ip = true) : PublicV6 ip := by
  obtain ⟨s0, s1, s2, s3, s4, s5, s6, s7, hsegments, hnat⟩ := exists_groups ip
  rw [isPublicV6, hsegments] at h
  cases hmapped : toIpv4Mapped [s0, s1, s2, s3, s4, s5, s6, s7] with
  | some v4 =>
    rw [hmapped] at h
    obtain ⟨rfl, rfl, rfl, rfl, rfl, rfl, rfl⟩ := toIpv4Mapped_eq_some hmapped
    refine .mapped _ ?_ h
    rw [toNat_embedded, hnat]
    simp only [Fin.val_zero, Fin.isValue]
    omega
  | none =>
    rw [hmapped] at h
    simp only at h
    split_ifs at h with hnat64 h6to4
    · obtain ⟨rfl, rfl, hzero⟩ := hnat64
      simp only [List.cons.injEq, and_true] at hzero
      obtain ⟨rfl, rfl, rfl, rfl⟩ := hzero
      refine .nat64 _ ?_ h
      rw [toNat_embedded, hnat]
      simp only [Fin.val_zero, Fin.isValue]
      omega
    · subst h6to4
      refine .sixToFour _ ?_ h
      rw [toNat_embedded, hnat]
      omega
    · simp only [Bool.and_eq_true, Bool.not_eq_true', decide_eq_true_eq, decide_eq_false_iff_not, and_e000_iff] at h
      obtain ⟨⟨hunicast, hdocumentation⟩, hprotocol⟩ := h
      have h6to4' : s0.val ≠ 0x2002 := fun heq => h6to4 (Fin.ext heq)
      have hdb8 : ¬(s0.val = 0x2001 ∧ s1.val = 0xdb8) :=
        fun heq => hdocumentation (.inl ⟨Fin.ext heq.1, Fin.ext heq.2⟩)
      have h3fff : ¬(s0.val = 0x3fff ∧ s1.val < 0x1000) := fun heq => hdocumentation (.inr ⟨Fin.ext heq.1, heq.2⟩)
      have hprotocol' : ¬(s0.val = 0x2001 ∧ s1.val < 0x200) := fun heq => hprotocol ⟨Fin.ext heq.1, heq.2⟩
      refine .globalUnicast ?_ ?_ ⟨?_, ?_⟩ ?_
      · omega
      · omega
      · omega
      · omega
      · omega

/-- A public IPv6 address is in no range of the registry, but for the mapped ones. -/
theorem public_v6 {ip : Ipv6Addr} (h : isPublicV6 ip = true) : ∀ range ∈ SPECIAL_V6, ¬InV6 range ip := by
  have hranges : ∀ range ∈ SPECIAL_V6, InV6 range ip →
      ip.toNat = 1 ∨ ip.toNat = 0 ∨ ip.toNat / 2 ^ 80 = 0x64ff9b0001 ∨ ip.toNat / 2 ^ 112 = 0x100 ∨
        ip.toNat / 2 ^ 105 = 0x100080 ∨ ip.toNat / 2 ^ 96 = 0x20010db8 ∨ ip.toNat / 2 ^ 108 = 0x3fff0 ∨
        ip.toNat / 2 ^ 112 = 0x5f00 ∨ 0xfc00 ≤ ip.toNat / 2 ^ 112 := by
    intro range hrange hin
    simp only [SPECIAL_V6, List.mem_cons, List.not_mem_nil, or_false] at hrange
    rcases hrange with rfl | rfl | rfl | rfl | rfl | rfl | rfl | rfl | rfl | rfl | rfl | rfl <;>
      simp only [InV6, Ipv6Addr.toNat, List.foldl_cons, List.foldl_nil] at hin ⊢ <;> omega
  intro range hrange hin
  have hplace := hranges range hrange hin
  cases publicV6_of ip h with
  | mapped v4 heq _ =>
    have := toNat_lt_v4 v4
    omega
  | nat64 v4 heq _ =>
    have := toNat_lt_v4 v4
    omega
  | sixToFour v4 heq _ =>
    have := toNat_lt_v4 v4
    omega
  | globalUnicast hunicast h6to4 hdocumentation hprotocol => omega

/-- What a public IPv6 address carries is public. -/
theorem public_carried {ip : Ipv6Addr} {v4 : Ipv4Addr} (h : isPublicV6 ip = true) (hcarries : Carries ip v4) :
    isPublicV4 v4 = true := by
  have hlt := toNat_lt_v4 v4
  rw [Carries] at hcarries
  cases publicV6_of ip h with
  | mapped v4' heq hpublic =>
    have := toNat_lt_v4 v4'
    rw [v4_eq_of_toNat (by omega : v4.toNat = v4'.toNat)]
    exact hpublic
  | nat64 v4' heq hpublic =>
    have := toNat_lt_v4 v4'
    rw [v4_eq_of_toNat (by omega : v4.toNat = v4'.toNat)]
    exact hpublic
  | sixToFour v4' heq hpublic =>
    have := toNat_lt_v4 v4'
    rw [v4_eq_of_toNat (by omega : v4.toNat = v4'.toNat)]
    exact hpublic
  | globalUnicast hunicast h6to4 hdocumentation hprotocol => omega

end Home.PublicDestination
