import Mathlib.Tactic.Common
import ManageOurHome.Auth.SignInOnce
import ManageOurHome.Lib.FMap

/-! @src apps/api/src/auth/google_id_token.rs | layer:model | family:authentication

    Google's signing keys, kept between sign-ins. One lock: each call of `key` reads its clock, fetches and answers before
    the next. A fetch gives a set of keys, or fails; an attempt holds off the next, failed or not. For the rest of the
    interval after one that failed, a key not held is answered as one that Google does not have.

        shouldRefresh ──no──▶ what is held
          │ yes
          ▼
        fetch ──a set──▶ it is held ─▶ what it has      fetch ──fails──▶ the key held, or an error -/

namespace Home.Auth.GoogleIdToken

open FiniteMap

/-! ### The cache -/

variable {K : Type}

/-- How long a key set is used before it is fetched again. -/
def JWKS_TTL : ℤ := 60 * minute

def shouldRefresh (lastAttempt fetchedAt : Option ℤ) (kidKnown : Bool) (minInterval : ℕ) (now : ℤ) : Bool :=
  match lastAttempt with
  | none => true
  | some lastAttempt =>
    if since now lastAttempt < minInterval then false
    else !kidKnown || fetchedAt.elim true fun at_ => decide (JWKS_TTL ≤ since now at_)

structure CachedKeys (K : Type) where
  keys : FMap Text K
  fetchedAt : Option ℤ
  lastAttempt : Option ℤ

def CachedKeys.default : CachedKeys K := ⟨.empty, none, none⟩

def CachedKeys.has (cached : CachedKeys K) (kid : Text) : Bool := (cached.keys.get kid).isSome

/-- A call of `key`: what it asks for, its clock, and what a fetch answers then: a key set, or nothing when it fails. -/
structure Call (K : Type) where
  kid : Text
  now : ℤ
  served : Option (FMap Text K)

/-- Whether the call fetches. -/
def refreshes (minInterval : ℕ) (cached : CachedKeys K) (call : Call K) : Bool :=
  shouldRefresh cached.lastAttempt cached.fetchedAt (cached.has call.kid) minInterval call.now

def key (minInterval : ℕ) (cached : CachedKeys K) (call : Call K) : CachedKeys K × Except Unit (Option K) :=
  if refreshes minInterval cached call then
    match call.served with
    | some keys => (⟨keys, some call.now, some call.now⟩, .ok (keys.get call.kid))
    | none =>
      if cached.has call.kid then ({ cached with lastAttempt := some call.now }, .ok (cached.keys.get call.kid))
      else ({ cached with lastAttempt := some call.now }, .error ())
  else (cached, .ok (cached.keys.get call.kid))

/-! ### Runs -/

structure Fetch (K : Type) where
  at_ : ℤ
  served : Option (FMap Text K)

/-- The cache, and the fetches it made. -/
structure Run (K : Type) where
  cached : CachedKeys K
  fetches : List (Fetch K)

def Run.call (minInterval : ℕ) (r : Run K) (call : Call K) : Run K where
  cached := (key minInterval r.cached call).1
  fetches := if refreshes minInterval r.cached call then r.fetches ++ [⟨call.now, call.served⟩] else r.fetches

def run (minInterval : ℕ) (calls : List (Call K)) : Run K := calls.foldl (Run.call minInterval) ⟨.default, []⟩

/-- What a call answers after some others. -/
def answer (minInterval : ℕ) (before : List (Call K)) (call : Call K) : Except Unit (Option K) :=
  (key minInterval (run minInterval before).cached call).2

/-- The keys of the last fetch that succeeded. -/
def lastServed (fetches : List (Fetch K)) : FMap Text K := (fetches.filterMap Fetch.served).getLast?.getD .empty

/-- The last attempt succeeded, and its set lacks the key. -/
def LastLacks (fetches : List (Fetch K)) (kid : Text) : Prop :=
  ∃ fetch, fetches.getLast? = some fetch ∧ ∃ keys, fetch.served = some keys ∧ keys.get kid = none

/-- The cache never refuses a good key for a failure of its own. -/
structure RefusesNoGoodKey (jwt : Jwt) (minInterval : ℕ) (calls : List (Call jwt.Key)) : Prop where
  spaced : (run minInterval calls).fetches.Pairwise fun f g => (minInterval : ℤ) ≤ g.at_ - f.at_
  held : ∀ before, before <+: calls → (run minInterval before).cached.keys = lastServed (run minInterval before).fetches
  found : ∀ before call, before ++ [call] <+: calls → ∀ k,
    (run minInterval (before ++ [call])).cached.keys.get call.kid = some k → answer minInterval before call = .ok (some k)
  missing : ∀ before call, before ++ [call] <+: calls → answer minInterval before call = .ok none →
    LastLacks (run minInterval (before ++ [call])).fetches call.kid
  /-- So it is of a token refused for its key. -/
  refused : ∀ before call, before ++ [call] <+: calls → ∀ jwks audience token expectedNonce now,
    keyId jwt token = .ok call.kid → jwks call.kid = answer minInterval before call →
    verify jwt jwks audience token expectedNonce now = .error (.Rejected .UnknownKey) →
    LastLacks (run minInterval (before ++ [call])).fetches call.kid
  /-- A key that left the sets served is let go. -/
  expired : ∀ before call, before ++ [call] <+: calls → ∀ t,
    (∀ fetch ∈ (run minInterval (before ++ [call])).fetches, fetch.served ≠ none) →
    (∀ fetch ∈ (run minInterval (before ++ [call])).fetches, t < fetch.at_ →
      ∀ keys, fetch.served = some keys → keys.get call.kid = none) →
    t + JWKS_TTL + minInterval < call.now → ∀ k, answer minInterval before call ≠ .ok (some k)

/-- The call asks for a key that is not held, within the interval after an attempt that failed. -/
def FollowsFailure (minInterval : ℕ) (fetches : List (Fetch K)) (call : Call K) : Prop :=
  ∃ fetch, fetches.getLast? = some fetch ∧ fetch.served = none ∧ since call.now fetch.at_ < minInterval ∧
    (lastServed fetches).get call.kid = none

/-! ### What a call does -/

section Step

variable {minInterval : ℕ} {cached : CachedKeys K} {call : Call K} {calls before : List (Call K)} {r : Run K}

theorem key_cases (minInterval : ℕ) (cached : CachedKeys K) (call : Call K) :
    (refreshes minInterval cached call = true ∧ ∃ keys, call.served = some keys ∧
      key minInterval cached call = (⟨keys, some call.now, some call.now⟩, .ok (keys.get call.kid))) ∨
    (refreshes minInterval cached call = true ∧ call.served = none ∧ ∃ k, cached.keys.get call.kid = some k ∧
      key minInterval cached call = ({ cached with lastAttempt := some call.now }, .ok (some k))) ∨
    (refreshes minInterval cached call = true ∧ call.served = none ∧ cached.keys.get call.kid = none ∧
      key minInterval cached call = ({ cached with lastAttempt := some call.now }, .error ())) ∨
    (refreshes minInterval cached call = false ∧
      key minInterval cached call = (cached, .ok (cached.keys.get call.kid))) := by
  cases hrefreshes : refreshes minInterval cached call with
  | false => exact .inr (.inr (.inr ⟨rfl, by rw [key, if_neg (by rw [hrefreshes]; exact Bool.false_ne_true)]⟩))
  | true =>
    cases hserved : call.served with
    | some keys => exact .inl ⟨rfl, keys, rfl, by rw [key, if_pos hrefreshes, hserved]⟩
    | none =>
      cases hget : cached.keys.get call.kid with
      | some k =>
        have hhas : cached.has call.kid = true := by rw [CachedKeys.has, hget, Option.isSome_some]
        exact .inr (.inl ⟨rfl, rfl, k, rfl, by rw [key, if_pos hrefreshes, hserved, if_pos hhas, hget]⟩)
      | none =>
        have hhas : ¬ cached.has call.kid = true := by
          rw [CachedKeys.has, hget, Option.isSome_none]
          exact Bool.false_ne_true
        exact .inr (.inr (.inl ⟨rfl, rfl, rfl, by rw [key, if_pos hrefreshes, hserved, if_neg hhas]⟩))

/-- Why a call does not fetch. -/
theorem not_refreshes_iff : refreshes minInterval cached call = false ↔ ∃ at_, cached.lastAttempt = some at_ ∧
    (since call.now at_ < minInterval ∨ (cached.has call.kid = true ∧
      ∃ fetchedAt, cached.fetchedAt = some fetchedAt ∧ since call.now fetchedAt < JWKS_TTL)) := by
  rw [refreshes]
  cases cached.lastAttempt with
  | none => simp [shouldRefresh]
  | some at_ =>
    by_cases hsince : since call.now at_ < minInterval
    · simp [shouldRefresh, hsince]
    · cases cached.fetchedAt with
      | none => simp [shouldRefresh, hsince]
      | some fetchedAt => simp [shouldRefresh, hsince]

theorem run_concat (minInterval : ℕ) (before : List (Call K)) (call : Call K) :
    run minInterval (before ++ [call]) = (run minInterval before).call minInterval call := by
  rw [run, List.foldl_append]
  rfl

/-- The cache is what its fetches make it. -/
structure Run.Kept (r : Run K) : Prop where
  keys : r.cached.keys = lastServed r.fetches
  lastAttempt : r.cached.lastAttempt = r.fetches.getLast?.map Fetch.at_
  fetchedAt : r.cached.fetchedAt = (r.fetches.filter fun fetch => fetch.served.isSome).getLast?.map Fetch.at_

theorem lastServed_concat (fetches : List (Fetch K)) (at_ : ℤ) (keys : FMap Text K) :
    lastServed (fetches ++ [⟨at_, some keys⟩]) = keys := by
  simp [lastServed]

theorem lastServed_concat_none (fetches : List (Fetch K)) (at_ : ℤ) :
    lastServed (fetches ++ [⟨at_, none⟩]) = lastServed fetches := by
  simp [lastServed]

theorem Run.Kept.step (h : r.Kept) (call : Call K) : (r.call minInterval call).Kept := by
  obtain ⟨hrefreshes, keys, hserved, hkey⟩ | ⟨hrefreshes, hserved, k, -, hkey⟩ | ⟨hrefreshes, hserved, -, hkey⟩ |
    ⟨hrefreshes, hkey⟩ := key_cases minInterval r.cached call
  · rw [Run.call, hkey, if_pos hrefreshes, hserved]
    exact ⟨(lastServed_concat _ _ _).symm, by simp, by simp⟩
  · rw [Run.call, hkey, if_pos hrefreshes, hserved]
    exact ⟨h.keys.trans (lastServed_concat_none _ _).symm, by simp, by simpa using h.fetchedAt⟩
  · rw [Run.call, hkey, if_pos hrefreshes, hserved]
    exact ⟨h.keys.trans (lastServed_concat_none _ _).symm, by simp, by simpa using h.fetchedAt⟩
  · rw [Run.call, hkey, if_neg (by rw [hrefreshes]; exact Bool.false_ne_true)]
    exact h

theorem kept_run (minInterval : ℕ) (calls : List (Call K)) : (run minInterval calls).Kept := by
  induction calls using List.reverseRecOn with
  | nil => exact ⟨rfl, rfl, rfl⟩
  | append_singleton before call ih =>
    rw [run_concat]
    exact ih.step call

/-- A call fetches at its clock. -/
theorem fetches_concat (minInterval : ℕ) (before : List (Call K)) (call : Call K) :
    (run minInterval (before ++ [call])).fetches = if refreshes minInterval (run minInterval before).cached call then
      (run minInterval before).fetches ++ [⟨call.now, call.served⟩] else (run minInterval before).fetches := by
  rw [run_concat]
  rfl

theorem mem_fetches {fetch : Fetch K} (h : fetch ∈ (run minInterval calls).fetches) :
    ∃ call ∈ calls, call.now = fetch.at_ ∧ call.served = fetch.served := by
  induction calls using List.reverseRecOn with
  | nil => cases h
  | append_singleton before call ih =>
    rw [fetches_concat] at h
    split at h
    · rcases List.mem_append.mp h with h | h
      · obtain ⟨c, hc, heq⟩ := ih h
        exact ⟨c, List.mem_append_left _ hc, heq⟩
      · rw [List.mem_singleton.mp h]
        exact ⟨call, List.mem_append_right _ (List.mem_singleton_self call), rfl, rfl⟩
    · obtain ⟨c, hc, heq⟩ := ih h
      exact ⟨c, List.mem_append_left _ hc, heq⟩

/-- Fetches are an interval apart. -/
theorem spaced_run (hsorted : calls.Pairwise fun c c' => c.now ≤ c'.now) :
    (run minInterval calls).fetches.Pairwise fun f g => (minInterval : ℤ) ≤ g.at_ - f.at_ := by
  induction calls using List.reverseRecOn with
  | nil => exact .nil
  | append_singleton before call ih =>
    obtain ⟨hbefore, -, hlast⟩ := List.pairwise_append.mp hsorted
    have hspaced := ih hbefore
    rw [fetches_concat]
    split
    · rename_i hrefreshes
      refine List.pairwise_append.mpr ⟨hspaced, List.pairwise_singleton _ _, fun f hf g hg => ?_⟩
      rw [List.mem_singleton.mp hg]
      -- The last fetch was an interval ago, and every other before it.
      obtain ⟨init, last, hinit⟩ : ∃ init last, (run minInterval before).fetches = init ++ [last] :=
        ⟨_, _, (List.dropLast_append_getLast (List.ne_nil_of_mem hf)).symm⟩
      have hattempt : (run minInterval before).cached.lastAttempt = some last.at_ := by
        rw [(kept_run minInterval before).lastAttempt, hinit, List.getLast?_concat, Option.map_some]
      have hsince : ¬ since call.now last.at_ < minInterval := fun hlt => by
        rw [not_refreshes_iff.mpr ⟨last.at_, hattempt, .inl hlt⟩] at hrefreshes
        cases hrefreshes
      have hmem : last ∈ (run minInterval before).fetches := by
        rw [hinit]
        exact List.mem_append_right _ (List.mem_singleton_self last)
      obtain ⟨c, hc, hnow, -⟩ := mem_fetches hmem
      have hle : last.at_ ≤ call.now := by
        rw [← hnow]
        exact hlast c hc call (List.mem_singleton_self call)
      rw [since_of_le hle] at hsince
      change (minInterval : ℤ) ≤ call.now - f.at_
      rw [hinit] at hspaced hf
      rcases List.mem_append.mp hf with hf | hf
      · have hearlier := (List.pairwise_append.mp hspaced).2.2 f hf last (List.mem_singleton_self last)
        omega
      · rw [List.mem_singleton.mp hf]
        omega
    · exact hspaced

/-- A call that does not fetch leaves the fetches as they are, after at least one. -/
theorem last_of_not_refreshes (h : refreshes minInterval (run minInterval before).cached call = false) :
    (run minInterval (before ++ [call])).fetches = (run minInterval before).fetches ∧
      ∃ fetch, (run minInterval before).fetches.getLast? = some fetch ∧
        (since call.now fetch.at_ < minInterval ∨ ((run minInterval before).cached.has call.kid = true ∧
          ∃ fetchedAt, (run minInterval before).cached.fetchedAt = some fetchedAt ∧
            since call.now fetchedAt < JWKS_TTL)) := by
  obtain ⟨at_, hattempt, hwhy⟩ := not_refreshes_iff.mp h
  rw [(kept_run minInterval before).lastAttempt, Option.map_eq_some_iff] at hattempt
  obtain ⟨fetch, hlast, rfl⟩ := hattempt
  refine ⟨?_, fetch, hlast, hwhy⟩
  rw [fetches_concat, if_neg (by rw [h]; exact Bool.false_ne_true)]

theorem lastServed_of_last {fetches : List (Fetch K)} {fetch : Fetch K} {keys : FMap Text K}
    (hlast : fetches.getLast? = some fetch) (hserved : fetch.served = some keys) : lastServed fetches = keys := by
  obtain ⟨init, rfl⟩ := List.getLast?_eq_some_iff.mp hlast
  obtain ⟨at_, served⟩ := fetch
  obtain rfl : served = some keys := hserved
  exact lastServed_concat init at_ keys

/-- What is held after a call is what it answers. -/
theorem answer_of_held {k : K} (h : (run minInterval (before ++ [call])).cached.keys.get call.kid = some k) :
    answer minInterval before call = .ok (some k) := by
  rw [run_concat, Run.call] at h
  rw [answer]
  obtain ⟨-, keys, -, hkey⟩ | ⟨-, -, k', hheld, hkey⟩ | ⟨-, -, hheld, hkey⟩ | ⟨-, hkey⟩ :=
    key_cases minInterval (run minInterval before).cached call
  · rw [hkey] at h ⊢
    exact congrArg Except.ok h
  · rw [hkey] at h ⊢
    exact congrArg Except.ok (hheld.symm.trans h)
  · rw [hkey] at h
    exact absurd (hheld.symm.trans h) (Option.some_ne_none k).symm
  · rw [hkey] at h ⊢
    exact congrArg Except.ok h

/-- A call says that Google lacks a key when the last set it served does, unless it follows a failure. -/
theorem lastLacks_iff (h : answer minInterval before call = .ok none) :
    LastLacks (run minInterval (before ++ [call])).fetches call.kid ↔
      ¬ FollowsFailure minInterval (run minInterval before).fetches call := by
  rw [answer] at h
  obtain ⟨hrefreshes, keys, hserved, hkey⟩ | ⟨-, -, k, -, hkey⟩ | ⟨-, -, -, hkey⟩ | ⟨hrefreshes, hkey⟩ :=
    key_cases minInterval (run minInterval before).cached call
  · rw [hkey] at h
    refine iff_of_true ?_ ?_
    · rw [fetches_concat, if_pos hrefreshes]
      exact ⟨⟨call.now, call.served⟩, List.getLast?_concat, keys, hserved, Except.ok.inj h⟩
    · rintro ⟨fetch, hlast, -, hsince, -⟩
      have hattempt : (run minInterval before).cached.lastAttempt = some fetch.at_ := by
        rw [(kept_run minInterval before).lastAttempt, hlast, Option.map_some]
      rw [not_refreshes_iff.mpr ⟨fetch.at_, hattempt, .inl hsince⟩] at hrefreshes
      cases hrefreshes
  · rw [hkey] at h
    cases h
  · rw [hkey] at h
    cases h
  · rw [hkey] at h
    have hlacks : (lastServed (run minInterval before).fetches).get call.kid = none := by
      rw [← (kept_run minInterval before).keys]
      exact Except.ok.inj h
    obtain ⟨hfetches, fetch, hlast, hwhy⟩ := last_of_not_refreshes hrefreshes
    rw [hfetches]
    have hsince : since call.now fetch.at_ < minInterval := by
      refine hwhy.resolve_right fun hheld => ?_
      rw [CachedKeys.has, (kept_run minInterval before).keys, hlacks] at hheld
      cases hheld.1
    constructor
    · rintro ⟨fetch', hlast', keys, hserved, -⟩ ⟨fetch'', hlast'', hfailed, -⟩
      rw [hlast'] at hlast''
      cases hlast''
      rw [hserved] at hfailed
      cases hfailed
    · intro hnot
      cases hserved : fetch.served with
      | none => exact absurd ⟨fetch, hlast, hserved, hsince, hlacks⟩ hnot
      | some keys =>
        refine ⟨fetch, hlast, keys, hserved, ?_⟩
        rw [← lastServed_of_last hlast hserved]
        exact hlacks

/-- A key asked for in the rest of the interval after a failure is answered as one that Google lacks. -/
theorem answer_of_followsFailure (h : FollowsFailure minInterval (run minInterval before).fetches call) :
    answer minInterval before call = .ok none := by
  obtain ⟨fetch, hlast, -, hsince, hlacks⟩ := h
  have hattempt : (run minInterval before).cached.lastAttempt = some fetch.at_ := by
    rw [(kept_run minInterval before).lastAttempt, hlast, Option.map_some]
  have hrefreshes := not_refreshes_iff.mpr ⟨fetch.at_, hattempt, .inl hsince⟩
  rw [answer, key, if_neg (by rw [hrefreshes]; exact Bool.false_ne_true), (kept_run minInterval before).keys, hlacks]

/-- While no fetch fails, a key that left the sets is let go. -/
theorem answer_of_expired {t : ℤ} (hserved : ∀ fetch ∈ (run minInterval (before ++ [call])).fetches, fetch.served ≠ none)
    (hlacks : ∀ fetch ∈ (run minInterval (before ++ [call])).fetches, t < fetch.at_ →
      ∀ keys, fetch.served = some keys → keys.get call.kid = none)
    (hlate : t + JWKS_TTL + minInterval < call.now) (k : K) : answer minInterval before call ≠ .ok (some k) := by
  have httl : 0 ≤ JWKS_TTL := by decide
  intro hanswer
  rw [answer] at hanswer
  obtain ⟨hrefreshes, keys, hcall, hkey⟩ | ⟨hrefreshes, hcall, -⟩ | ⟨-, -, -, hkey⟩ | ⟨hrefreshes, hkey⟩ :=
    key_cases minInterval (run minInterval before).cached call
  · rw [hkey] at hanswer
    rw [fetches_concat, if_pos hrefreshes] at hlacks
    have hnone := hlacks ⟨call.now, call.served⟩ (List.mem_append_right _ (List.mem_singleton_self _))
      (by change t < call.now; omega) keys hcall
    exact Option.some_ne_none k ((Except.ok.inj hanswer).symm.trans hnone)
  · rw [fetches_concat, if_pos hrefreshes] at hserved
    exact hserved ⟨call.now, call.served⟩ (List.mem_append_right _ (List.mem_singleton_self _)) hcall
  · rw [hkey] at hanswer
    cases hanswer
  · rw [hkey] at hanswer
    obtain ⟨hfetches, fetch, hlast, hwhy⟩ := last_of_not_refreshes hrefreshes
    rw [hfetches] at hserved hlacks
    have hmem := List.mem_of_getLast? hlast
    obtain ⟨keys, hkeys⟩ := Option.ne_none_iff_exists'.mp (hserved fetch hmem)
    have hheld := (kept_run minInterval before).keys
    rw [lastServed_of_last hlast hkeys] at hheld
    rw [hheld] at hanswer
    -- The last fetch was of a set that has the key: it was at `t` at the latest, too long ago.
    have hat : fetch.at_ ≤ t := by
      by_contra hlt
      have hnone := hlacks fetch hmem (by omega) keys hkeys
      exact Option.some_ne_none k ((Except.ok.inj hanswer).symm.trans hnone)
    have hfetchedAt : (run minInterval before).cached.fetchedAt = some fetch.at_ := by
      have hall : (run minInterval before).fetches.filter (fun fetch => fetch.served.isSome) =
          (run minInterval before).fetches :=
        List.filter_eq_self.mpr fun f hf => Option.isSome_iff_ne_none.mpr (hserved f hf)
      rw [(kept_run minInterval before).fetchedAt, hall, hlast, Option.map_some]
    rcases hwhy with hsince | ⟨-, at_, hat', hsince⟩
    · rw [since_of_le (by omega)] at hsince
      omega
    · rw [hfetchedAt] at hat'
      cases hat'
      rw [since_of_le (by omega)] at hsince
      omega

end Step

/-! ### The keys and the sign-ins -/

section Main

variable {jwt : Jwt}

/-- Which tokens are refused for their key. -/
theorem verify_unknownKey {jwks : Text → Except Unit (Option jwt.Key)} {audience token kid : Text}
    {expectedNonce : Option Text} {now : ℕ} (hkid : keyId jwt token = .ok kid)
    (h : verify jwt jwks audience token expectedNonce now = .error (.Rejected .UnknownKey)) : jwks kid = .ok none := by
  rw [verify, hkid] at h
  dsimp only at h
  cases hjwks : jwks kid with
  | error e =>
    rw [hjwks] at h
    cases h
  | ok found =>
    cases found with
    | none => rfl
    | some k =>
      rw [hjwks] at h
      dsimp only at h
      split at h
      · cases h
      · cases h
      · rename_i claims _
        have hreason : validateClaims claims audience expectedNonce now ≠ .error .UnknownKey := by
          rw [validateClaims]
          split_ifs <;> exact fun heq => by cases heq
        split at h
        · rename_i reason hclaims
          cases h
          exact absurd hclaims hreason
        · cases h

/-- The cache keeps its word in a run exactly when no call asks for a key it does not hold in the interval that follows an
    attempt that failed. -/
theorem refusesNoGoodKey_iff (jwt : Jwt) (minInterval : ℕ) (calls : List (Call jwt.Key))
    (hsorted : calls.Pairwise fun c c' => c.now ≤ c'.now) : RefusesNoGoodKey jwt minInterval calls ↔
      ∀ before call, before ++ [call] <+: calls → ¬ FollowsFailure minInterval (run minInterval before).fetches call := by
  constructor
  · intro h before call hcalls hfollows
    have hanswer := answer_of_followsFailure hfollows
    exact (lastLacks_iff hanswer).mp (h.missing before call hcalls hanswer) hfollows
  · intro h
    exact {
      spaced := spaced_run hsorted
      held := fun before _ => (kept_run minInterval before).keys
      found := fun before call _ k => answer_of_held
      missing := fun before call hcalls hanswer => (lastLacks_iff hanswer).mpr (h before call hcalls)
      refused := fun before call hcalls jwks audience token expectedNonce now hkid hjwks hrefused =>
        (lastLacks_iff (hjwks.symm.trans (verify_unknownKey hkid hrefused))).mpr (h before call hcalls)
      expired := fun before call _ t hserved hlacks hlate => answer_of_expired hserved hlacks hlate
    }

/-- A key of the set served, then one that it lacks. -/
theorem refusesNoGoodKey_served : RefusesNoGoodKey jwtOne 60000000000
    [⟨"k".toList, 0, some (FMap.one "k".toList ())⟩, ⟨"x".toList, 1, some (FMap.one "k".toList ())⟩] := by
  refine (refusesNoGoodKey_iff jwtOne 60000000000 _ (by simp)).mpr ?_
  rintro before call hcalls ⟨fetch, hlast, hfailed, -⟩
  obtain ⟨c, hc, -, hserved⟩ := mem_fetches (List.mem_of_getLast? hlast)
  have hin := hcalls.subset (List.mem_append_left _ hc)
  rcases List.mem_cons.mp hin with rfl | hin
  · exact absurd (hserved.trans hfailed) (Option.some_ne_none _)
  · rw [List.mem_singleton.mp hin] at hserved
    exact absurd (hserved.trans hfailed) (Option.some_ne_none _)

/-- The first fetch fails: a second sign-in has its key refused. -/
theorem refuses_after_failure : ¬ ∀ (jwt : Jwt) (minInterval : ℕ) (calls : List (Call jwt.Key)),
    (calls.Pairwise fun c c' => c.now ≤ c'.now) → RefusesNoGoodKey jwt minInterval calls := by
  intro h
  have hmissing := (h jwtOne 60000000000 [⟨"k".toList, 0, none⟩, ⟨"k".toList, 1, none⟩] (by simp)).missing
    [⟨"k".toList, 0, none⟩] ⟨"k".toList, 1, none⟩ (List.prefix_refl _) rfl
  obtain ⟨fetch, hlast, keys, hserved, -⟩ := hmissing
  cases hlast
  cases hserved

end Main

end Home.Auth.GoogleIdToken
