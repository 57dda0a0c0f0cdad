import ManageOurHome.ClientIp.Resolve

/-! @src apps/api/src/client_ip.rs, apps/web/src/client_ip.rs | layer:proof | family:client address

    No caller chooses the address it is known by. What a chain of trusted proxies adds to a header stands
    on its right, entry by entry, whatever the caller wrote on its left; the reading from the right meets
    the address the first proxy saw before anything of the caller's.

        entries   junk … │ c  p₁  p₂ …
                           ▲ ◀──────── trusted -/

namespace Home.ClientIp

open Net

/-! ### What an address is as an entry -/

variable {ip : IpAddr} {h : Text}

/-- A text that is one entry. -/
structure Entry (token : Text) : Prop where
  comma : ',' ∉ token
  trim : trim token = token
  ne_nil : token ≠ []

variable {trusted : TrustedProxies} {peer : IpAddr}

/-- The addresses a chain adds: the first it saw, and its own but the last. -/
def hops : IpAddr → List Proxy → List IpAddr
  | _, [] => []
  | seen, p :: proxies => seen :: hops p.addr proxies

/-- An entry the walk does not go past: not blank, and no address that is trusted. -/
def Stops (trusted : TrustedProxies) (token : Text) : Prop :=
  trim token ≠ [] ∧ ∀ ip, parseEntry (trim token) = some ip → contains trusted ip = false

/-- What the walk answers is the peer, an address trusted before it, or that of an entry read, none of
    them on the left of one it does not go past. -/
theorem walk_stops (peer : IpAddr) {token : Text} (hstop : Stops trusted token) (right : List Text) : ∀ innermost,
    ∃ ip, (∀ left, walk trusted peer innermost (right ++ token :: left) = ip) ∧
      (ip = innermost.getD peer ∨ ∃ entry ∈ token :: right, parseEntry (trim entry) = some ip) := by
  induction right with
  | nil =>
    intro innermost
    obtain ⟨hblank, huntrusted⟩ := hstop
    rcases hparse : parseEntry (trim token) with _ | ip
    · refine ⟨innermost.getD peer, fun left => ?_, Or.inl rfl⟩
      rw [List.nil_append, walk, if_neg hblank, hparse]
    · refine ⟨ip, fun left => ?_, Or.inr ⟨token, List.mem_cons_self, hparse⟩⟩
      rw [List.nil_append, walk, if_neg hblank, hparse]
      exact if_neg (by rw [huntrusted ip hparse]; simp)
  | cons entry right ih =>
    intro innermost
    by_cases hblank : trim entry = []
    · obtain ⟨ip, hwalk, hip⟩ := ih innermost
      refine ⟨ip, fun left => ?_, ?_⟩
      · rw [List.cons_append, walk, if_pos hblank, hwalk]
      · rcases hip with hip | ⟨e, he, hparse⟩
        · exact Or.inl hip
        · exact Or.inr ⟨e, by
            rcases List.mem_cons.mp he with rfl | he
            · exact List.mem_cons_self
            · exact List.mem_cons_of_mem _ (List.mem_cons_of_mem _ he), hparse⟩
    · rcases hparse : parseEntry (trim entry) with _ | ip
      · refine ⟨innermost.getD peer, fun left => ?_, Or.inl rfl⟩
        rw [List.cons_append, walk, if_neg hblank, hparse]
      · by_cases htrusted : contains trusted ip = true
        · obtain ⟨ip', hwalk, hip'⟩ := ih (some ip)
          refine ⟨ip', fun left => ?_, Or.inr ?_⟩
          · rw [List.cons_append, walk, if_neg hblank, hparse]
            exact (if_pos htrusted).trans (hwalk left)
          · rcases hip' with rfl | ⟨e, he, hparse'⟩
            · exact ⟨entry, by simp, hparse⟩
            · refine ⟨e, ?_, hparse'⟩
              rcases List.mem_cons.mp he with rfl | he
              · exact List.mem_cons_self
              · exact List.mem_cons_of_mem _ (List.mem_cons_of_mem _ he)
        · refine ⟨ip, fun left => ?_, Or.inr ⟨entry, by simp, hparse⟩⟩
          rw [List.cons_append, walk, if_neg hblank, hparse]
          exact if_neg htrusted

end Home.ClientIp
