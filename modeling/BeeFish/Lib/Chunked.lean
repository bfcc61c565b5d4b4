/-
# Chunked bodies

A chunked body is a row of chunks, each with its length in hexadecimal before
it, and an empty chunk at the end. A chunk is read back from what follows it
(`chunk_append_inj`), so a body has one end: with more bytes after its last
chunk it is no body (`not_isBody_append`).

Key definitions: `Chunked.chunk`, `Chunked.IsBody`.
-/
import Mathlib.Data.List.Basic
import Mathlib.Tactic.Common

namespace Chunked

abbrev Bytes := List UInt8

def digit (n : ℕ) : UInt8 := UInt8.ofNat (if n < 10 then 48 + n else 55 + n)

/-- A number in hexadecimal digits. -/
def hex (n : ℕ) : Bytes := if n < 16 then [digit n] else hex (n / 16) ++ [digit (n % 16)]

def crlf : Bytes := [13, 10]

/-- A chunk with its length. -/
def chunk (data : Bytes) : Bytes := hex data.length ++ crlf ++ data ++ crlf

/-- The bytes are one body of the content: chunks of some bytes, and then one
of none. -/
def IsBody (content bytes : Bytes) : Prop :=
  ∃ chunks : List Bytes, (∀ c ∈ chunks, c ≠ []) ∧ chunks.flatten = content ∧
    bytes = chunks.flatMap chunk ++ chunk []

/-! ### Lengths -/

/-- The number of a digit. -/
def ofDigit (b : UInt8) : ℕ := if b.toNat < 58 then b.toNat - 48 else b.toNat - 55

theorem ofDigit_digit {n : ℕ} (h : n < 16) : ofDigit (digit n) = n := by
  have hall : ∀ k : Fin 16, ofDigit (digit k) = k := by decide
  exact hall ⟨n, h⟩

theorem digit_ne_cr {n : ℕ} (h : n < 16) : digit n ≠ 13 := by
  have hall : ∀ k : Fin 16, digit k ≠ 13 := by decide
  exact hall ⟨n, h⟩

theorem foldl_hex (n : ℕ) : (hex n).foldl (fun value b => value * 16 + ofDigit b) 0 = n := by
  rw [hex]
  split_ifs with h
  · simp [ofDigit_digit h]
  · rw [List.foldl_append, foldl_hex (n / 16)]
    have hmod : n % 16 < 16 := Nat.mod_lt _ (by omega)
    simp only [List.foldl_cons, List.foldl_nil, ofDigit_digit hmod]
    omega
termination_by n
decreasing_by omega

theorem cr_notMem_hex (n : ℕ) : 13 ∉ hex n := by
  rw [hex]
  split_ifs with h
  · simpa using (digit_ne_cr h).symm
  · rw [List.mem_append, not_or]
    exact ⟨cr_notMem_hex (n / 16), by simpa using (digit_ne_cr (Nat.mod_lt n (by omega))).symm⟩
termination_by n
decreasing_by omega

/-- What comes before the first line end is read back. -/
theorem append_cr_inj : ∀ {xs ys a b : Bytes}, 13 ∉ xs → 13 ∉ ys → xs ++ 13 :: a = ys ++ 13 :: b →
    xs = ys ∧ a = b
  | [], [], _, _, _, _, h => ⟨rfl, (List.cons.inj h).2⟩
  | [], y :: ys, _, _, _, hy, h => absurd ((List.cons.inj h).1 ▸ List.mem_cons_self) hy
  | x :: xs, [], _, _, hx, _, h => absurd ((List.cons.inj h).1 ▸ List.mem_cons_self) hx
  | x :: xs, y :: ys, _, _, hx, hy, h => by
    obtain ⟨rfl, hrest⟩ := List.cons.inj h
    obtain ⟨rfl, hab⟩ :=
      append_cr_inj (fun hm => hx (List.mem_cons_of_mem _ hm))
        (fun hm => hy (List.mem_cons_of_mem _ hm)) hrest
    exact ⟨rfl, hab⟩

theorem hex_append_inj {m n : ℕ} {a b : Bytes} (h : hex m ++ crlf ++ a = hex n ++ crlf ++ b) :
    m = n ∧ a = b := by
  rw [List.append_assoc, List.append_assoc] at h
  obtain ⟨hhex, hrest⟩ := append_cr_inj (cr_notMem_hex m) (cr_notMem_hex n) h
  refine ⟨?_, (List.cons.inj hrest).2⟩
  rw [← foldl_hex m, ← foldl_hex n, hhex]

/-! ### Chunks -/

/-- A chunk is read back, with what follows it. -/
theorem chunk_append_inj {c d a b : Bytes} (h : chunk c ++ a = chunk d ++ b) : c = d ∧ a = b := by
  unfold chunk at h
  simp only [List.append_assoc] at h
  rw [← List.append_assoc, ← List.append_assoc (hex d.length)] at h
  obtain ⟨hlen, hdata⟩ := hex_append_inj h
  obtain ⟨rfl, hrest⟩ := List.append_inj hdata hlen
  exact ⟨rfl, List.append_cancel_left hrest⟩

theorem chunk_ne_nil (c : Bytes) : chunk c ≠ [] := by simp [chunk, crlf]

/-- Chunks up to an empty one are read back, with what follows. -/
theorem flatMap_chunk_inj : ∀ {cs ds : List Bytes} {a b : Bytes}, (∀ c ∈ cs, c ≠ []) →
    (∀ d ∈ ds, d ≠ []) →
    cs.flatMap chunk ++ chunk [] ++ a = ds.flatMap chunk ++ chunk [] ++ b → cs = ds ∧ a = b
  | [], [], a, b, _, _, h => ⟨rfl, List.append_cancel_left h⟩
  | [], d :: ds, a, b, _, hd, h => by
    rw [List.flatMap_cons, List.append_assoc, List.append_assoc] at h
    exact absurd (chunk_append_inj (by simpa using h)).1.symm (hd d List.mem_cons_self)
  | c :: cs, [], a, b, hc, _, h => by
    rw [List.flatMap_cons, List.append_assoc, List.append_assoc] at h
    exact absurd (chunk_append_inj (by simpa using h)).1 (hc c List.mem_cons_self)
  | c :: cs, d :: ds, a, b, hc, hd, h => by
    simp only [List.flatMap_cons, List.append_assoc] at h
    obtain ⟨rfl, hrest⟩ := chunk_append_inj h
    rw [← List.append_assoc, ← List.append_assoc] at hrest
    obtain ⟨rfl, hab⟩ := flatMap_chunk_inj (fun k hk => hc k (List.mem_cons_of_mem _ hk))
      (fun k hk => hd k (List.mem_cons_of_mem _ hk)) hrest
    exact ⟨rfl, hab⟩

/-- There is nothing after the last chunk of a body. -/
theorem not_isBody_append {content bytes rest content' : Bytes} (h : IsBody content bytes)
    (hr : rest ≠ []) :
    ¬ IsBody content' (bytes ++ rest) := by
  rintro ⟨ds, hds, -, heq⟩
  obtain ⟨cs, hcs, -, rfl⟩ := h
  exact hr (flatMap_chunk_inj hcs hds (heq.trans (List.append_nil _).symm)).2

/-- Chunks, one more and an end are a body unless that one is empty, and so an
end before the end. -/
theorem isBody_iff {chunks : List Bytes} {rest : Bytes} (h : ∀ c ∈ chunks, c ≠ []) :
    IsBody (chunks.flatten ++ rest) (chunks.flatMap chunk ++ chunk rest ++ chunk []) ↔
      rest ≠ [] := by
  constructor
  · rintro hbody rfl
    have hend : IsBody chunks.flatten (chunks.flatMap chunk ++ chunk []) := ⟨chunks, h, rfl, rfl⟩
    exact not_isBody_append hend (chunk_ne_nil []) hbody
  · intro h0
    refine ⟨chunks ++ [rest], ?_, by simp, by simp⟩
    intro c hc
    rcases List.mem_append.mp hc with hc | hc
    · exact h c hc
    · rwa [List.mem_singleton.mp hc]

end Chunked
