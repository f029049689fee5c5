import Mathlib.Data.List.Forall2
import Kairax.Lib.Bytes

/-!
# Tokens of a string

`strtok_r` goes over the bytes of a string by a pointer that it keeps between the calls, and ends each token with a NUL
in place of the delimiter behind it.
-/

namespace Kairax.Libc

open List Option Lib

/-- How many bytes from a pointer on belong to `P`. It is `none` if there is no end to them. -/
def span (P : Byte → Prop) [DecidablePred P] : List Byte → Option Nat
  | [] => none
  | c :: rest => if P c then (span P rest).map (· + 1) else some 0

def strspn (delim : List Byte) : List Byte → Option Nat := span fun c => c ≠ 0 ∧ c ∈ delim

def strcspn (delim : List Byte) : List Byte → Option Nat := span fun c => c ≠ 0 ∧ c ∉ delim

/-- `strtok_r` with its pointer at `s`: the token, the bytes of the string and the new pointer. -/
def strtokR (delim str : List Byte) (s : Nat) : Option (Option Nat × List Byte × Nat) :=
  (strspn delim (str.drop s)).bind fun n =>
    str[s + n]?.bind fun c =>
      if c = 0 then some (none, str, s + n)
      else (strcspn delim (str.drop (s + n))).bind fun m =>
        str[s + n + m]?.map fun d =>
          if d = 0 then (some (s + n), str, s + n + m) else (some (s + n), str.set (s + n + m) 0, s + n + m + 1)

/-- The calls up to the first that returns `NULL`. -/
def strtokAll (delim : List Byte) : Nat → List Byte → Nat → Option (List Nat × List Byte × Nat)
  | 0, _, _ => none
  | fuel + 1, str, s =>
    (strtokR delim str s).bind fun r =>
      r.1.elim (some ([], r.2)) fun token =>
        (strtokAll delim fuel r.2.1 r.2.2).map fun r => (token :: r.1, r.2)

/-- The string that a pointer stands for. -/
def cstring (str : List Byte) (s : Nat) : List Byte := (str.drop s).takeWhile (· ≠ 0)

/-- The longest parts of a string that hold no delimiter, without the empty ones. -/
def tokens (delim w : List Byte) : List (List Byte) := (w.splitOnP (· ∈ delim)).filter (· ≠ [])

variable {delim w token rest : List Byte} {c d : Byte}

theorem tokens_delimiter (hc : c ∈ delim) (w : List Byte) : tokens delim (c :: w) = tokens delim w := by
  rw [tokens, splitOnP_cons_eq_if_modifyHead, if_pos (decide_eq_true hc), filter_cons_of_neg (by simp), tokens]

theorem tokens_append (htoken : ∀ c ∈ token, c ∉ delim) (hne : token ≠ []) (hd : d ∈ delim) (rest : List Byte) :
    tokens delim (token ++ d :: rest) = token :: tokens delim rest := by
  rw [tokens, splitOnP_append_cons_of_forall_mem (fun c hc => decide_eq_false (htoken c hc)) d (decide_eq_true hd),
    filter_cons_of_pos (by simpa using hne), tokens]

theorem tokens_single (htoken : ∀ c ∈ token, c ∉ delim) (hne : token ≠ []) : tokens delim token = [token] := by
  rw [tokens, splitOnP_eq_singleton fun c hc => decide_eq_false (htoken c hc), filter_cons_of_pos (by simpa using hne)]
  rfl

theorem cstring_append (pre : List Byte) (htoken : 0 ∉ token) (rest : List Byte) :
    cstring (pre ++ (token ++ 0 :: rest)) pre.length = token := by
  rw [cstring, drop_left, takeWhile_append_of_pos]
  · simp
  · intro c hc
    simpa using ne_of_mem_of_not_mem hc htoken

theorem getElem?_length_append (pre : List Byte) (c : Byte) (rest : List Byte) :
    (pre ++ c :: rest)[pre.length]? = some c := by
  rw [getElem?_append_right le_rfl, Nat.sub_self, getElem?_cons_zero]

theorem strtokR_end (delim pre : List Byte) :
    strtokR delim (pre ++ [0]) pre.length = some (none, pre ++ [0], pre.length) := by
  simp [strtokR, strspn, span]

theorem strtokR_skip (hc : c ∈ delim) (hne : c ≠ 0) (pre rest : List Byte) :
    strtokR delim (pre ++ c :: rest) pre.length = strtokR delim (pre ++ [c] ++ rest) (pre ++ [c]).length := by
  rw [strtokR, strtokR, drop_left, strspn, span, if_pos ⟨hne, hc⟩, bind_map]
  simp [Nat.add_assoc, Nat.add_comm 1]

theorem strcspn_append (htoken : ∀ c ∈ token, c ≠ 0 ∧ c ∉ delim) (hd : d = 0 ∨ d ∈ delim) (rest : List Byte) :
    strcspn delim (token ++ d :: rest) = some token.length := by
  induction token with
  | nil => exact if_neg fun h => hd.elim h.1 h.2
  | cons c token ih =>
    rw [cons_append, strcspn, span, if_pos (htoken c mem_cons_self), ← strcspn,
      ih fun c hc => htoken c (mem_cons_of_mem _ hc)]
    rfl

theorem strtokR_token (pre : List Byte) (hne : token ≠ []) (htoken : ∀ c ∈ token, c ≠ 0 ∧ c ∉ delim)
    (hd : d = 0 ∨ d ∈ delim) (rest : List Byte) :
    strtokR delim (pre ++ (token ++ d :: rest)) pre.length =
      some (some pre.length, pre ++ (token ++ 0 :: rest), (pre ++ token).length + if d = 0 then 0 else 1) := by
  have hspan := strcspn_append htoken hd rest
  obtain ⟨c, token, rfl⟩ := exists_cons_of_ne_nil hne
  have hc := htoken c mem_cons_self
  have hskip : strspn delim (c :: token ++ d :: rest) = some 0 := if_neg fun h => hc.2 h.2
  have hread : (pre ++ (c :: token ++ d :: rest))[pre.length]? = some c := getElem?_length_append pre c _
  rw [strtokR, drop_left, hskip, bind_some, add_zero, hread, bind_some, if_neg hc.1, drop_left, hspan, bind_some,
    ← length_append, ← append_assoc, getElem?_length_append, map_some, set_append_right _ _ le_rfl, Nat.sub_self,
    set_cons_zero]
  split_ifs with hzero
  · rw [hzero, append_assoc, add_zero]
  · rw [append_assoc]

theorem exists_token (hc : c ∉ delim) (w : List Byte) :
    ∃ token rest, c :: w = token ++ rest ∧ token ≠ [] ∧ (∀ x ∈ token, x ∉ delim) ∧
      ∀ d r, rest = d :: r → d ∈ delim := by
  refine ⟨c :: w.takeWhile (· ∉ delim), w.dropWhile (· ∉ delim), ?_, cons_ne_nil _ _, forall_mem_cons.mpr ⟨hc, ?_⟩, ?_⟩
  · rw [cons_append, takeWhile_append_dropWhile]
  · intro x hx
    simpa using all_eq_true.mp all_takeWhile x hx
  · intro d r hd
    have := head?_dropWhile_not (· ∉ delim) w
    rw [hd] at this
    simpa using this

/-- A byte after the calls: only a delimiter is changed, to the end of a token. -/
def Ended (delim : List Byte) (c c' : Byte) : Prop := c' = c ∨ c ∈ delim ∧ c' = 0

theorem ended_refl (delim l : List Byte) : Forall₂ (Ended delim) l l := forall₂_same.mpr fun _ _ => .inl rfl

theorem exists_strtokAll (hdelim : 0 ∉ delim) (pre : List Byte) (hw : 0 ∉ w) {fuel : Nat} (hfuel : w.length < fuel) :
    ∃ starts tail s, strtokAll delim fuel (pre ++ (w ++ [0])) pre.length = some (starts, pre ++ tail, s) ∧
      starts.map (cstring (pre ++ tail)) = tokens delim w ∧ Forall₂ (Ended delim) (w ++ [0]) tail ∧
      strtokR delim (pre ++ tail) s = some (none, pre ++ tail, s) := by
  induction hn : w.length using Nat.strong_induction_on generalizing pre w fuel with
  | h n ih =>
  obtain ⟨fuel, rfl⟩ := Nat.exists_eq_succ_of_ne_zero (Nat.ne_zero_of_lt hfuel)
  cases w with
  | nil =>
    refine ⟨[], [0], pre.length, ?_, rfl, ended_refl delim [0], strtokR_end delim pre⟩
    rw [strtokAll, nil_append, strtokR_end, bind_some, elim_none]
  | cons c w =>
    subst hn
    by_cases hc : c ∈ delim
    · obtain ⟨starts, tail, s, hcalls, htokens, hended, hnull⟩ :=
        ih w.length (Nat.lt_succ_self _) (pre ++ [c]) (not_mem_of_not_mem_cons hw)
        ((Nat.lt_succ_self _).trans hfuel) rfl
      refine ⟨starts, c :: tail, s, ?_, ?_, .cons (.inl rfl) hended, ?_⟩
      · rw [cons_append, strtokAll, strtokR_skip hc (ne_of_mem_of_not_mem hc hdelim), ← strtokAll, hcalls, append_assoc]
        rfl
      · rw [tokens_delimiter hc, ← htokens, append_assoc]
        rfl
      · simpa using hnull
    · obtain ⟨token, rest, hsplit, hne, htoken, hhead⟩ := exists_token hc w
      rw [hsplit] at hw hfuel ih ⊢
      rw [mem_append, not_or] at hw
      have hlen := length_pos_of_ne_nil hne
      have htoken' : ∀ c ∈ token, c ≠ 0 ∧ c ∉ delim := fun c hc => ⟨ne_of_mem_of_not_mem hc hw.1, htoken c hc⟩
      cases rest with
      | nil =>
        have hcall := strtokR_token pre hne htoken' (.inl rfl) []
        have hnull := strtokR_end delim (pre ++ token)
        rw [if_pos rfl, add_zero, ← append_assoc] at hcall
        obtain ⟨fuel, rfl⟩ := Nat.exists_eq_succ_of_ne_zero (show fuel ≠ 0 by rw [append_nil] at hfuel; omega)
        rw [append_nil, ← append_assoc]
        refine ⟨[pre.length], token ++ [0], (pre ++ token).length, ?_, ?_, ended_refl delim _, ?_⟩
        · rw [strtokAll, hcall, bind_some, elim_some, strtokAll, hnull, bind_some, elim_none, map_some, append_assoc]
        · rw [tokens_single htoken hne, map_singleton, cstring_append _ hw.1]
        · rw [← append_assoc, hnull]
      | cons d rest =>
        have hd := hhead d rest rfl
        have hcall := strtokR_token pre hne htoken' (.inr hd) (rest ++ [0])
        rw [if_neg (ne_of_mem_of_not_mem hd hdelim)] at hcall
        rw [length_append, length_cons] at hfuel
        obtain ⟨starts, tail, s, hcalls, htokens, hended, hnull⟩ := ih rest.length
          (by rw [length_append, length_cons]; omega) (pre ++ (token ++ [0])) (not_mem_of_not_mem_cons hw.2)
          (show rest.length < fuel by omega) rfl
        simp only [append_assoc, cons_append, nil_append, length_append, length_singleton, ← Nat.add_assoc]
          at hcall hcalls htokens hnull ⊢
        refine ⟨pre.length :: starts, token ++ 0 :: tail, s, ?_, ?_, ?_, hnull⟩
        · rw [strtokAll, hcall, bind_some, elim_some, hcalls, map_some]
        · rw [tokens_append htoken hne hd, map_cons, cstring_append _ hw.1, htokens]
        · exact rel_append (ended_refl delim token) (.cons (.inr ⟨hd, rfl⟩) hended)

/-- The calls of `strtok_r` return the tokens of a string in order, each ended by a NUL in its place, overwrite only
delimiters, and every later call returns `NULL`. -/
theorem strtok_r_tokens {delim w : List Byte} (hdelim : 0 ∉ delim) (hw : 0 ∉ w) {fuel : Nat} (hfuel : w.length < fuel) :
    ∃ starts str s, strtokAll delim fuel (w ++ [0]) 0 = some (starts, str, s) ∧
      starts.map (cstring str) = tokens delim w ∧ Forall₂ (Ended delim) (w ++ [0]) str ∧
      strtokR delim str s = some (none, str, s) :=
  exists_strtokAll hdelim [] hw hfuel

theorem strtok_r_tokens_two :
    ∃ starts str s, strtokAll [32] 5 [32, 97, 32, 98, 0] 0 = some (starts, str, s) ∧
      starts.map (cstring str) = [[97], [98]] ∧ Forall₂ (Ended [32]) [32, 97, 32, 98, 0] str ∧
      strtokR [32] str s = some (none, str, s) :=
  strtok_r_tokens (w := [32, 97, 32, 98]) (by decide) (by decide) (by decide)

end Kairax.Libc
