/-
# Resuming an iteration

The key of an iterator (`Iterator::toKey`, Database/Iterable.hpp) is its stack,
packed to bytes and written in base64; `begin(key)` unpacks it, walks along the
bits again and goes on from there. At every key that the iteration comes to,
these are the bits of the key, and what follows is what is left
(`resume_position`). At the end they are none, and the iteration would start
again.

A key string that is none of these is to be rejected, and both counts, of the
stack and of the walk, are there for this. They are zero at the end of a key,
but also at the end of a key below it, and before the first bit: so bits that
lead through two or more keys, or that are none, pass (`seek_bits`).

Key definitions: `Iterable.position`, `Iterable.toKey`, `Iterable.seek`,
`Iterable.resumed`.
-/
import BeeFish.IdKey
import BeeFish.Paging
import BeeFish.Keys

namespace BeeFish

open BitCode BitTree

/-! ### Iterators and their keys -/

namespace Iterable

section

variable {σ : Type} [PathBase σ]

/-- The iterator that `begin()` gives, after `n` increments. -/
def position (α : Type) [Encoded α] (fuel : ℕ) (db : Database) (path : σ) : ℕ → Option (Walk σ)
  | 0 => (Walk.nextItem (α := α) fuel ⟨db, PathBase.copy path, .empty⟩).map Prod.snd
  | n + 1 => do
    let c ← position α fuel db path n
    (Walk.nextItem (α := α) fuel c).map Prod.snd

/-- `Iterator::toKey` -/
def toKey (c : Walk σ) : BString := c.stack.toData.toBase64

/-- What `begin(key)` throws: an invalid character of the base64, or
`InvalidStackException`. -/
inductive KeyError where
  | base64
  | invalidStack
  deriving DecidableEq

/-- `begin(key)` and `Iterator(iterable, stack)`, up to the call of `next`. -/
def seek (db : Database) (path : σ) (key : BString) : Except KeyError (Walk σ) :=
  match key.fromBase64 with
  | none => .error .base64
  | some data =>
    let stack := Stack.fromData data
    if stack.count ≠ 0 then .error .invalidStack
    else
      match IdIterator.walkBits stack.bits db (PathBase.copy path) 0 with
      | none => .error .invalidStack
      | some (path, db, count) =>
        if count ≠ 0 then .error .invalidStack else .ok ⟨db, path, ⟨stack.bits, 0, 0⟩⟩

/-- The items from `begin(key)` to `end()`. -/
def resumed (α : Type) [Encoded α] (fuel : ℕ) (db : Database) (path : σ) (key : BString) :
    Option (Except KeyError (List α)) :=
  match seek db path key with
  | .error error => some (.error error)
  | .ok c => (Walk.nextItems fuel c).map fun (items, _) => .ok items

end

end Iterable

/-! ### The bits of a key string -/

/-- Any bytes unpack to some whole codes and an unfinished one, which the
count of the stack tells. -/
structure Stack.Unpacks (s : Stack) (ks : List Key) (u : List Bool) : Prop where
  bits : s.bits = bitsOf ks ++ u
  stays : Stays 0 u
  count : s.count = height 0 u

namespace Stack.Unpacks

variable {s : Stack} {ks : List Key} {u : List Bool}

theorem push_true (h : s.Unpacks ks u) : (s.push_back true).Unpacks ks (u ++ [true]) where
  bits := by rw [push_back_bits, h.bits, List.append_assoc]
  stays := stays_append_true h.stays
  count := by rw [push_back_count, h.count, countBit_eq_height, height_append]

/-- A zero goes on in the code, or ends it. -/
theorem push_false (h : s.Unpacks ks u) (hpos : 0 < height 0 u) :
    (s.push_back false).Unpacks ks (u ++ [false]) ∨ ∃ key, (s.push_back false).Unpacks
    (ks ++ [key]) [] := by
  have hcount : (s.push_back false).count = height 0 u - 1 := by
    rw [push_back_count, h.count]
    rfl
  by_cases h1 : height 0 u = 1
  · refine Or.inr ⟨⟨u ++ [false], closes_append_false h.stays h1⟩, ?_, trivial, ?_⟩
    · rw [push_back_bits, h.bits, bitsOf_concat]
      simp
    · rw [hcount, h1]
      rfl
  · refine Or.inl ⟨by rw [push_back_bits, h.bits, List.append_assoc], stays_append_false h.stays
      (by omega), ?_⟩
    rw [hcount, height_append]
    rfl

/-- The bits that are taken lead on in the same way. -/
theorem foldl : ∀ (v : List Bool) {count : ℤ} {s : Stack} {ks : List Key} {u : List Bool},
    s.Unpacks ks u →
    (count < 0 ∨ count = height 0 u) → ∃ ks' u', (v.foldl takeBit (count, s)).2.Unpacks ks' u'
  | [], _, _, ks, u, h, _ => ⟨ks, u, h⟩
  | b :: v, count, s, ks, u, h, hc => by
    rw [List.foldl_cons]
    rcases hc with hneg | rfl
    · have hb : takeBit (count, s) b = (count, s) := if_neg (by omega)
      rw [hb]
      exact foldl v h (Or.inl hneg)
    · cases b with
      | true =>
        rw [takeBit_true]
        apply foldl v h.push_true
        rw [height_append]
        exact Or.inr rfl
      | false =>
        by_cases h0 : height 0 u = 0
        · rw [h0]
          exact foldl v h (Or.inl (by decide))
        · rw [takeBit_false (by omega)]
          rcases h.push_false (by omega) with h' | ⟨key, h'⟩
          · apply foldl v h'
            rw [height_append]
            exact Or.inr rfl
          · have hcount := h'.count
            rw [push_back_count, h.count] at hcount
            exact foldl v h' (Or.inr (congrArg Int.ofNat hcount))

theorem fromData (data : BString) : ∃ ks u, (fromData data).Unpacks ks u :=
  have hempty : (⟨[], 0, 0⟩ : Stack).Unpacks [] [] := ⟨rfl, trivial, rfl⟩
  foldl _ hempty (Or.inr rfl)

theorem count_eq_zero (h : s.Unpacks ks u) : s.count = 0 ↔ u = [] := by
  rw [h.count]
  constructor
  · intro h0
    by_contra hne
    exact (height_pos_of_stays u 0 h.stays (Or.inr hne)).ne' h0
  · rintro rfl
    rfl

/-- Bits of whole codes leave no unfinished one. -/
theorem eq_nil_of_bitsOf (h : s.Unpacks ks u) {ks' : List Key} (hks' : s.bits = bitsOf ks') :
    u = [] := by
  rw [h.bits] at hks'
  obtain ⟨t, rfl⟩ := bitsOf_isPrefix.mp ⟨u, hks'⟩
  rw [bitsOf_append, List.append_cancel_left_eq] at hks'
  cases t with
  | nil => exact hks'
  | cons key t =>
    have hu : key.bits <+: u := ⟨bitsOf t, by rw [hks']; rfl⟩
    exact absurd key.isCode (not_isCode_of_isPrefix h.stays hu)

end Stack.Unpacks

theorem count_bitsOf : ∀ ks : List Key, (bitsOf ks).count true = (bitsOf ks).count false
  | [] => rfl
  | key :: ks => by
    have hkey := Closes.count key.isCode
    rw [show bitsOf (key :: ks) = key.bits ++ bitsOf ks from rfl, List.count_append,
      List.count_append, count_bitsOf ks]
    omega

/-! ### Where the bits lead -/

namespace Rep

variable {db : Database} {Γ : Heap} {L : Layout} {path : List Key}

/-- Along bits that are there the walk comes to their branch, whatever keys
they lead through. -/
theorem walkBits_of_some (h : Rep db Γ L) : ∀ {v w : List Bool} {p : Path} {c : ℤ},
    StandsAt L path p w →
    (L (bitsOf path ++ (w ++ v))).isSome →
    ∃ q, IdIterator.walkBits v db p c = some (q, db, c + v.count true - v.count false) ∧
      StandsAt L path q (w ++ v)
  | [], w, p, c, hR, _ => ⟨p, by simp [IdIterator.walkBits], by rwa [List.append_nil]⟩
  | b :: v, w, p, c, hR, hsome => by
    have hw : w ++ b :: v = w ++ [b] ++ v := by simp
    have hb : (L (bitsOf path ++ (w ++ [b]))).isSome := by
      obtain ⟨n, hn⟩ := Option.isSome_iff_exists.mp hsome
      obtain ⟨m, hm⟩ := h.of_isPrefix hn (u := bitsOf path ++ (w ++ [b])) ⟨v, by simp⟩
      rw [hm]
      rfl
    have hcan := (h.canGo hR b).trans hb
    obtain ⟨hdb, hgo⟩ := h.go hR hb
    rw [hw] at hsome ⊢
    cases b with
    | false =>
      obtain ⟨q, hwalk, hq⟩ := walkBits_of_some h (c := c - 1) hgo hsome
      have hdb : (PathBase.goLeft db p).2 = db := hdb
      refine ⟨q, ?_, hq⟩
      rw [IdIterator.walkBits, if_pos ⟨rfl, hcan⟩, hdb]
      refine hwalk.trans ?_
      simp
      omega
    | true =>
      obtain ⟨q, hwalk, hq⟩ := walkBits_of_some h (c := c + 1) hgo hsome
      have hdb : (PathBase.goRight db p).2 = db := hdb
      refine ⟨q, ?_, hq⟩
      rw [IdIterator.walkBits, if_neg (by simp), if_pos ⟨rfl, hcan⟩, hdb]
      refine hwalk.trans ?_
      simp
      omega

/-- Along bits that are not there it throws. -/
theorem walkBits_of_none (h : Rep db Γ L) : ∀ {v w : List Bool} {p : Path} {c : ℤ},
    StandsAt L path p w →
    L (bitsOf path ++ (w ++ v)) = none → IdIterator.walkBits v db p c = none
  | [], w, p, c, hR, hnone => by
    obtain ⟨n, hn, -⟩ := hR
    rw [List.append_nil, hn] at hnone
    cases hnone
  | b :: v, w, p, c, hR, hnone => by
    have hcan := h.canGo hR b
    by_cases hb : (L (bitsOf path ++ (w ++ [b]))).isSome
    · obtain ⟨hdb, hgo⟩ := h.go hR hb
      rw [show w ++ b :: v = w ++ [b] ++ v by simp] at hnone
      rw [hb] at hcan
      cases b with
      | false =>
        have hdb : (PathBase.goLeft db p).2 = db := hdb
        rw [IdIterator.walkBits, if_pos ⟨rfl, hcan⟩, hdb]
        exact walkBits_of_none h hgo hnone
      | true =>
        have hdb : (PathBase.goRight db p).2 = db := hdb
        rw [IdIterator.walkBits, if_neg (by simp), if_pos ⟨rfl, hcan⟩, hdb]
        exact walkBits_of_none h hgo hnone
    · have hnot : ∀ a, ¬ (b = a ∧ PathBase.canGo db p a = true) := by
        rintro a ⟨rfl, hgo⟩
        exact hb (hcan ▸ hgo)
      have hleft : ¬ (b = false ∧ PathBase.canGoLeft db p = true) := hnot false
      have hright : ¬ (b = true ∧ PathBase.canGoRight db p = true) := hnot true
      rw [IdIterator.walkBits, if_neg hleft, if_neg hright]

end Rep

/-! ### Positions -/

section

variable {α : Type} [Encoded α] [LawfulEncoded α] {σ : Type} [PathBase σ] {db : Database}
    {T : BitTree}
  {R : σ → List Bool → Prop} {p : σ}

/-- A call of `next(stack, item)` with the items `as` before it. -/
theorem nextItem_lands (as : List α) {c : Walk σ}
    (h : ∃ r, Returns (Walk.next · c) r ∧ Lands T db R (as.map encode) r) :
    ∃ c', Returns (fun fuel => Walk.nextItem (α := α) fuel c) (as.head?, c') ∧
      c'.At db R ((as.head?.map encode).getD []) ∧ ∀ a, as.head? = some a →
        T.later (encode a) = as.tail.map encode := by
  obtain ⟨⟨found, c'⟩, hr, hl⟩ := h
  cases as with
  | nil =>
    obtain ⟨rfl, hat⟩ : found = false ∧ c'.At db R [] := hl
    exact ⟨c', hr.bind_some rfl, hat, fun a ha => by cases ha⟩
  | cons a as =>
    obtain ⟨rfl, -, hat, hlater⟩ : found = true ∧ IsCode (encode a) ∧ c'.At db R (encode a) ∧
      T.later (encode a) = as.map encode := hl
    obtain ⟨c₁, hread, hat₁⟩ := readItem_of_at hat
    exact ⟨c₁, hr.bind_some hread, hat₁, fun b hb => by
      obtain rfl := Option.some.inj hb
      exact hlater⟩

/-- After `n` increments the iterator is at the item `n`, or at the end. -/
theorem position_at (hT : Tracks db T R) (h : R (PathBase.copy p) []) {items : List α}
    (hi : items.map encode = T.keys) :
    ∀ n ≤ items.length, ∃ c, Returns (fun fuel => Iterable.position α fuel db p n) c ∧
      c.At db R (((items.drop n).head?.map encode).getD []) ∧
      ∀ a, (items.drop n).head? = some a → T.later (encode a) = (items.drop n).tail.map encode
  | 0, _ => by
    have hstart := next_lands_start hT (at_start db h)
    rw [← hi] at hstart
    obtain ⟨c, hr, hat, hlater⟩ := nextItem_lands items hstart
    exact ⟨c, hr.map Prod.snd, hat, hlater⟩
  | n + 1, hn => by
    obtain ⟨c, hr, hat, hlater⟩ := position_at hT h hi n (by omega)
    have hdrop : items.drop n = items[n] :: items.drop (n + 1) := List.drop_eq_getElem_cons hn
    rw [hdrop] at hat hlater
    have hnext := next_lands hT (LawfulEncoded.isCode items[n]) hat
    rw [hlater _ rfl] at hnext
    obtain ⟨c', hr', hat', hlater'⟩ := nextItem_lands (items.drop (n + 1)) hnext
    refine ⟨c', ?_, hat', hlater'⟩
    exact Settles.bind (r := fun _ => some c') hr.settles fun y hy => by
      obtain rfl := Option.some.inj hy
      exact (hr'.map Prod.snd).settles

end

/-! ### Key strings -/

/-- The bits that a key string unpacks to; none if it is not base64. -/
def keyBits (key : BString) : Option (List Bool) :=
  key.fromBase64.map fun data => (Stack.fromData data).bits

/-- The key string of a stack at a key, or at the start. -/
theorem fromData_of_stack {s : Stack} (h : s.bits = [] ∨ IsCode s.bits) :
    Stack.fromData s.toData = ⟨s.bits, 0, 0⟩ := by
  rcases h with h | h
  · rw [Stack.toData, h]
    rfl
  · exact Stack.fromData_toData h

namespace Rep

variable {db : Database} {Γ : Heap} {L : Layout} {M : Store} {path : List Key} {p : Path}
    {key data : BString}

/-- `begin(key)` walks to bits that are those of some keys on end, and throws
at others. -/
theorem seek (h : Rep db Γ L) (hM : Refines L M) (hR : StandsAt L path (PathBase.copy p) [])
    (hdata : key.fromBase64 = some data) :
    (∃ ks q, (Stack.fromData data).bits = bitsOf ks ∧ (M (path ++ ks)).isSome ∧
      Iterable.seek db p key = .ok ⟨db, q, ⟨bitsOf ks, 0, 0⟩⟩ ∧ StandsAt L path q (bitsOf ks)) ∨
    (∀ ks, (Stack.fromData data).bits = bitsOf ks → M (path ++ ks) = none) ∧
      Iterable.seek db p key = .error .invalidStack := by
  obtain ⟨ks, u, hs⟩ := Stack.Unpacks.fromData data
  unfold Iterable.seek
  simp only [hdata]
  by_cases hu : u = []
  · subst hu
    have hbits := hs.bits
    rw [List.append_nil] at hbits
    rw [if_neg (not_not.mpr (hs.count_eq_zero.mpr rfl)), hbits]
    by_cases hM' : (M (path ++ ks)).isSome
    · have hsome : (L (bitsOf path ++ ([] ++ bitsOf ks))).isSome := by
        rw [List.nil_append, ← bitsOf_append, ← hM.isSome]
        exact hM'
      obtain ⟨q, hwalk, hq⟩ := h.walkBits_of_some (c := 0) hR hsome
      have hcount : (0 : ℤ) + (bitsOf ks).count true - (bitsOf ks).count false = 0 := by
        rw [count_bitsOf]
        omega
      refine Or.inl ⟨ks, q, rfl, hM', ?_, hq⟩
      rw [hwalk, hcount]
      rfl
    · have hnone : L (bitsOf path ++ ([] ++ bitsOf ks)) = none := by
        rw [List.nil_append, ← bitsOf_append]
        simpa [hM.isSome] using hM'
      refine Or.inr ⟨fun ks' hks' => ?_, ?_⟩
      · rw [← bitsOf_injective hks']
        simpa using hM'
      · rw [h.walkBits_of_none hR hnone]
  · rw [if_pos (hs.count_eq_zero.not.mpr hu)]
    refine Or.inr ⟨fun ks' hks' => absurd ?_ hu, rfl⟩
    exact hs.eq_nil_of_bitsOf hks'

/-- Bits that are not those of one key are rejected, unless they are those of
none or of more, that are there. -/
theorem seek_iff (h : Rep db Γ L) (hM : Refines L M) (hR : StandsAt L path (PathBase.copy p) [])
    (key : BString) :
    (∃ k : Key, keyBits key = some k.bits ∧ (M (path ++ [k])).isSome) ∨
      Iterable.seek db p key = .error .invalidStack ↔
      ∃ bits, keyBits key = some bits ∧ ¬ ∃ ks : List Key, ks.length ≠ 1 ∧ bits = bitsOf ks ∧
        (M (path ++ ks)).isSome := by
  unfold keyBits
  cases hdata : key.fromBase64 with
  | none =>
    have hseek : Iterable.seek db p key = .error .base64 := by simp only [Iterable.seek, hdata]
    simp [hseek]
  | some data =>
    simp only [Option.map_some, Option.some.injEq, exists_eq_left']
    rcases h.seek hM hR hdata with ⟨ks, q, hbits, hsome, hseek, -⟩ | ⟨hnone, hseek⟩
    · rw [hseek, hbits, or_iff_left (by simp)]
      by_cases hlen : ks.length = 1
      · obtain ⟨k, rfl⟩ := List.length_eq_one_iff.mp hlen
        refine iff_of_true ⟨k, bitsOf_singleton k, hsome⟩ ?_
        rintro ⟨js, hjs, hsame, -⟩
        exact hjs (bitsOf_injective hsame ▸ hlen)
      · refine iff_of_false ?_ (not_not.mpr ⟨ks, hlen, rfl, hsome⟩)
        rintro ⟨k, hk, -⟩
        rw [← bitsOf_singleton] at hk
        exact hlen (by rw [bitsOf_injective hk, List.length_singleton])
    · refine iff_of_true (Or.inr hseek) ?_
      rintro ⟨ks, -, hks, hsome⟩
      rw [hnone ks hks] at hsome
      cases hsome

end Rep

/-- At a key that is there, and at the start, `begin(toKey())` comes back to
where the iterator is. -/
theorem Rep.seek_toKey {db : Database} {Γ : Heap} {L : Layout} {M : Store} {path : List Key}
    (h : Rep db Γ L) (hM : Refines L M)
    {p : Path} (hR : StandsAt L path (PathBase.copy p) []) {c : Walk Path} {w : List Bool}
    (hbits : c.stack.bits = w)
    (hw : w = [] ∨ IsCode w) (hsome : (L (bitsOf path ++ w)).isSome) :
    ∃ q, Iterable.seek db p (Iterable.toKey c) = .ok ⟨db, q, ⟨w, 0, 0⟩⟩ ∧ StandsAt L path q w := by
  subst hbits
  have hstack := fromData_of_stack hw
  obtain ⟨ks, hks⟩ : ∃ ks, c.stack.bits = bitsOf ks := by
    rcases hw with hnil | hcode
    · exact ⟨[], hnil⟩
    · exact ⟨[⟨_, hcode⟩], (bitsOf_singleton ⟨_, hcode⟩).symm⟩
  rcases h.seek hM hR (fromBase64_toBase64 c.stack.toData) with ⟨js, q, hjs, -, hseek,
    hq⟩ | ⟨hnone, -⟩
  · rw [hstack] at hjs
    rw [← hjs] at hseek hq
    exact ⟨q, hseek, hq⟩
  · have hks' := hnone ks (by rw [hstack, hks])
    rw [hks, ← bitsOf_append, ← hM.isSome, hks'] at hsome
    cases hsome

section

variable {α : Type} [Encoded α] [LawfulEncoded α]

/-- Resuming from the iterator after `n` increments gives what follows, unless
it is at the end. -/
theorem Rep.resume_position {db : Database} {Γ : Heap} {L : Layout} {M : Store} {path : List Key}
    (h : Rep db Γ L)
    (hM : Refines L M) (hp : (M path).isSome) {p : Path} (hR : StandsAt L path (PathBase.copy p) [])
    {items : List α}
    (hi : items.map encode = (h.tree hM hp).keys) {n : ℕ} (hn : n ≤ items.length) :
    ∃ c, Returns (fun fuel => Iterable.position α fuel db p n) c ∧
      c.stack.bits = ((items.drop n).head?.map encode).getD [] ∧
      (Returns (fun fuel => Iterable.resumed α fuel db p (Iterable.toKey c))
        (.ok (items.drop (n + 1))) ↔
        n < items.length ∨ items = []) := by
  have hT := h.tracks hM hp
  obtain ⟨c, hr, hat, hlater⟩ := position_at hT hR hi n hn
  refine ⟨c, hr, hat.stack.bits, ?_⟩
  have hresumed : ∀ {c' : Walk Path} {as : List α}, Iterable.seek db p (Iterable.toKey c) = .ok c' →
      (∃ r, Returns (Walk.next · c') r ∧ Lands (h.tree hM hp) db (StandsAt L path)
        (as.map encode) r) →
      Returns (fun fuel => Iterable.resumed α fuel db p (Iterable.toKey c)) (.ok as) := by
    intro c' as hseek hlands
    obtain ⟨c₁, hr₁, -⟩ := nextItems_lands hT as hlands
    simp only [Iterable.resumed, hseek]
    exact hr₁.map fun r => Except.ok r.1
  rcases hn.lt_or_eq with hlt | heq
  · refine iff_of_true ?_ (Or.inl hlt)
    have hdrop : items.drop n = items[n] :: items.drop (n + 1) := List.drop_eq_getElem_cons hlt
    rw [hdrop] at hat hlater
    have hcode : IsCode (encode items[n]) := LawfulEncoded.isCode items[n]
    have hmem : encode items[n] ∈ (h.tree hM hp).keys :=
      hi ▸ List.mem_map_of_mem (List.getElem_mem hlt)
    obtain ⟨q, hseek, hq⟩ := h.seek_toKey hM hR hat.stack.bits (Or.inr hcode)
      ((h.tree hM hp).mem_keys.mp hmem).2
    apply hresumed hseek
    rw [← @List.tail_cons _ items[n] (items.drop (n + 1)), ← hlater _ rfl]
    exact next_lands hT hcode ⟨rfl, hq, .of_code hcode rfl rfl⟩
  · -- at the end the key string is empty, and all keys follow
    have hnil : items.drop n = [] := by rw [heq, List.drop_length]
    rw [hnil] at hat
    have hsome : (L (bitsOf path ++ [])).isSome := by rwa [List.append_nil, ← hM.isSome]
    obtain ⟨q, hseek, hq⟩ := h.seek_toKey hM hR hat.stack.bits (Or.inl rfl) hsome
    have hall := next_lands_start hT (c := ⟨db, q, .empty⟩) ⟨rfl, hq, stackAt_empty⟩
    rw [← hi] at hall
    have hret := hresumed hseek hall
    rw [show items.drop (n + 1) = [] from List.drop_eq_nil_of_le (by omega),
      or_iff_right (by omega)]
    constructor
    · intro hret'
      exact Except.ok.inj (hret.unique hret')
    · rintro rfl
      exact hret

/-- **Resuming is exact at every key**: after any run of operations, from each
iterator over the keys under a path that stands at a key `begin(toKey())` gives
the keys that follow, in order; from the end it gives all of them again. And a
key string, not empty, whose bits are not those of one key directly under the
path is rejected, unless they are those of two or more keys that are there one
below the other, or none. -/
theorem resume_exact (ops : List Op) (path : List Key)
    (hα : ∀ key, ((applyAll .empty ops).2 (path ++ [key])).isSome → ∃ a : α, key = .of a) :
    ∃ (answers : List Answer) (db : Database) (items : List α),
      runAll .create ops = some (answers, db) ∧
      (∀ a, a ∈ items ↔ ((applyAll .empty ops).2 (path ++ [.of a])).isSome) ∧
        (items.map encode).Pairwise (· < ·) ∧
      (∀ n ≤ items.length, ∃ c, Returns (fun fuel =>
          Iterable.position α fuel (Path.getAll db .root path).2 (Path.getAll db .root path).1 n)
            c ∧
        c.stack.bits = ((items.drop n).head?.map encode).getD [] ∧
        (Returns (fun fuel => Iterable.resumed α fuel (Path.getAll db .root path).2
          (Path.getAll db .root path).1
          (Iterable.toKey c)) (.ok (items.drop (n + 1))) ↔ n < items.length ∨ items = [])) ∧
      ∀ key : BString, key ≠ [] →
        ((∃ k : Key, keyBits key = some k.bits ∧ ((applyAll .empty ops).2 (path ++ [k])).isSome) ∨
          Iterable.seek (Path.getAll db .root path).2 (Path.getAll db .root path).1 key =
            .error .invalidStack ↔
        ∃ bits, keyBits key = some bits ∧ ¬ ∃ ks : List Key, ks.length ≠ 1 ∧ bits = bitsOf ks ∧
          ((applyAll .empty ops).2.visit path (path ++ ks)).isSome) := by
  obtain ⟨db, he, Γ₀, L₀, h₀, hM₀⟩ := stores_create.runAll ops
  obtain ⟨Γ, L, n, hn, h, hw, hM, hp⟩ := h₀.walk hM₀ path
  obtain ⟨items, hi, hmem⟩ := h.exists_items hM hp fun key hkey =>
    hα key (by rwa [Store.visit_concat] at hkey)
  have hR : StandsAt L path (PathBase.copy (Path.getAll db .root path).1) [] :=
    ⟨n, by simpa using hw, hn.symm⟩
  refine ⟨_, db, items, he, fun a => by rw [hmem, Store.visit_concat], ?_, fun n hn =>
    h.resume_position hM hp hR hi hn,
    fun key _ => ?_⟩
  · rw [hi]
    exact (h.tree hM hp).sorted_keys
  · simp only [← h.seek_iff hM hR key, Store.visit_concat]

end

/-- Two keys under the root. -/
theorem resume_exact_two :
    ∃ (answers : List Answer) (db : Database) (items : List ℕ),
      runAll .create [⟨[.of 2, .of 3], .setData [7]⟩, ⟨[.of 5], .deleteData⟩] = some (answers, db) ∧
      (∀ a, a ∈ items ↔
        ((applyAll .empty [⟨[.of 2, .of 3], .setData [7]⟩, ⟨[.of 5], .deleteData⟩]).2
          ([] ++ [.of a])).isSome) ∧
      (items.map encode).Pairwise (· < ·) ∧
      (∀ n ≤ items.length, ∃ c, Returns (fun fuel =>
          Iterable.position ℕ fuel (Path.getAll db .root []).2 (Path.getAll db .root []).1 n) c ∧
        c.stack.bits = ((items.drop n).head?.map encode).getD [] ∧
        (Returns (fun fuel => Iterable.resumed ℕ fuel (Path.getAll db .root []).2
          (Path.getAll db .root []).1
          (Iterable.toKey c)) (.ok (items.drop (n + 1))) ↔ n < items.length ∨ items = [])) ∧
      ∀ key : BString, key ≠ [] →
        ((∃ k : Key, keyBits key = some k.bits ∧
            ((applyAll .empty [⟨[.of 2, .of 3], .setData [7]⟩, ⟨[.of 5], .deleteData⟩]).2
              ([] ++ [k])).isSome) ∨
          Iterable.seek (Path.getAll db .root []).2 (Path.getAll db .root []).1 key =
            .error .invalidStack ↔
        ∃ bits, keyBits key = some bits ∧ ¬ ∃ ks : List Key, ks.length ≠ 1 ∧ bits = bitsOf ks ∧
          ((applyAll .empty [⟨[.of 2, .of 3], .setData [7]⟩, ⟨[.of 5], .deleteData⟩]).2.visit []
            ([] ++ ks)).isSome) :=
  resume_exact [⟨[.of 2, .of 3], .setData [7]⟩, ⟨[.of 5], .deleteData⟩] [] fun key hkey => by
    by_cases h2 : key = .of (2 : ℕ)
    · exact ⟨2, h2⟩
    · by_cases h5 : key = .of (5 : ℕ)
      · exact ⟨5, h5⟩
      · simp [applyAll, Op.apply, Action.apply, Store.put, Store.visit, Store.empty, h2, h5] at hkey

/-- The keys 2 and 3, one below the other, in one key string. -/
theorem seek_nested : ∃ (answers : List Answer) (db : Database),
    runAll .create [⟨[.of 2, .of 3], .setData [7]⟩] = some (answers, db) ∧ text "45A=" ≠ [] ∧
      ¬ ((∃ k : Key, keyBits (text "45A=") = some k.bits ∧
          ((applyAll .empty [⟨[.of 2, .of 3], .setData [7]⟩]).2 ([] ++ [k])).isSome) ∨
        Iterable.seek db Path.root (text "45A=") = .error .invalidStack) := by
  have hbits : keyBits (text "45A=") = some (encode 2 ++ encode 3) := by decide +kernel
  have hrun : (runAll .create [⟨[.of 2, .of 3], .setData [7]⟩]).map
      (fun r => (Iterable.seek r.2 Path.root (text "45A=")).toOption.isSome) =
        some true := by decide +kernel
  obtain ⟨⟨answers, db⟩, hdb, hseek⟩ := Option.map_eq_some_iff.mp hrun
  refine ⟨answers, db, hdb, by decide, ?_⟩
  rintro (⟨k, hk, -⟩ | herror)
  · rw [hbits] at hk
    have hcode := k.isCode
    rw [← Option.some.inj hk] at hcode
    exact absurd hcode (by decide +kernel)
  · simp only [herror] at hseek
    cases hseek

end BeeFish
