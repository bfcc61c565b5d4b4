/-
# The locks of the indices of a file

`LockFile::lock` counts in the map who wants an index, under the mutex of the
file, and inserts an entry for the first. The first also locks the mutex of
the index there; the others leave the mutex of the file first, look for the
entry again and wait at its mutex. `LockFile::unlock` unlocks the mutex of the
index, counts down and erases the entry at zero.

The sections under the mutex of the file are single steps here. Looking for the
entry outside of them takes time: other threads may come between its beginning
and its end, and if one of them inserts or erases an entry there, the map is
read while it is written, and what follows is undefined. An entry has an
address, which is not used again: whoever still knows the address of an erased
entry reads memory that is gone.

Whatever the threads lock, each one its indices in nested pairs as
`Path::ScopedLock` does, as long as no one inserts or erases an entry while
another one is looking through the map, an index is locked by one thread at
most, its entry is in the map while someone holds or awaits it, and the counter
is how many do (`LockFile.locks_of_undisturbed`).

Key definitions: `SharedMap`, `LockFile.Thread.step`, `LockFile.Nested`,
`LockFile.Undisturbed`, `LockFile.Locks`.
-/
import BeeFish.Processes
import Mathlib.Algebra.BigOperators.Group.Finset.Piecewise
import Mathlib.Algebra.Order.BigOperators.Group.Finset

namespace BeeFish

open Interleave

/-! ### The map -/

/-- The map in the shared memory: where the entry of an index is, what is at
an address, the address of the next entry, and how often an entry has been
inserted or erased. -/
structure SharedMap (ι : Type) where
  entries : ℕ → Option ℕ
  memory : ℕ → Option (MapValueType ι)
  next : ℕ
  changes : ℕ

namespace SharedMap

variable {ι : Type}

def empty : SharedMap ι := ⟨fun _ => none, fun _ => none, 0, 0⟩

/-- `operator []`: where the entry of the index is, which is inserted if there
is none. -/
def find (x : SharedMap ι) (index : ℕ) : SharedMap ι × ℕ :=
  match x.entries index with
  | some address => (x, address)
  | none =>
    ({ entries := Function.update x.entries index (some x.next)
       memory := Function.update x.memory x.next (some ⟨.free, 0⟩)
       next := x.next + 1
       changes := x.changes + 1 }, x.next)

def write (x : SharedMap ι) (address : ℕ) (value : MapValueType ι) : SharedMap ι :=
  { x with memory := Function.update x.memory address (some value) }

def erase (x : SharedMap ι) (index : ℕ) : SharedMap ι :=
  match x.entries index with
  | some address =>
    { x with
      entries := Function.update x.entries index none
      memory := Function.update x.memory address none
      changes := x.changes + 1 }
  | none => x

/-- The value of an index; one that is not in the map is free and no one wants
it. -/
def value (x : SharedMap ι) (index : ℕ) : MapValueType ι :=
  ((x.entries index).bind x.memory).getD ⟨.free, 0⟩

/-- What is in the map is found without a change. -/
theorem find_changes {x : SharedMap ι} {i a : ℕ} (h : x.entries i = some a) :
    (x.find i).1.changes = x.changes := by
  simp [SharedMap.find, h]

/-- The entries of the map have values, at addresses of their own. -/
structure Wf (x : SharedMap ι) : Prop where
  lt : ∀ {i a}, x.entries i = some a → a < x.next
  inj : ∀ {i j a}, x.entries i = some a → x.entries j = some a → i = j
  memory : ∀ {i a}, x.entries i = some a → x.memory a = some (x.value i)

theorem wf_empty : (empty : SharedMap ι).Wf := by
  constructor <;> intros <;> contradiction

/-- A step at one index: its value becomes `v`, its entry stays where it is or
goes, and the others are as they were. -/
structure Becomes (x x' : SharedMap ι) (i : ℕ) (v : MapValueType ι) : Prop where
  wf : x'.Wf
  value : x'.value i = v
  others : ∀ j, j ≠ i → x'.entries j = x.entries j ∧ x'.value j = x.value j
  stays : ∀ a, x.entries i = some a → x'.entries i ≠ none → x'.entries i = some a

theorem Becomes.trans {x x' x'' : SharedMap ι} {i : ℕ} {v v' : MapValueType ι}
    (h : Becomes x x' i v) (h' : Becomes x' x'' i v') (hp : x'.entries i ≠ none) :
    Becomes x x'' i v' where
  wf := h'.wf
  value := h'.value
  others j hj :=
    ⟨(h'.others j hj).1.trans (h.others j hj).1, (h'.others j hj).2.trans (h.others j hj).2⟩
  stays a ha hp' := h'.stays a (h.stays a ha hp) hp'

/-- A step that writes at no more than one address, which is that of the
index or is new. -/
theorem Wf.becomes {x x' : SharedMap ι} (h : x.Wf) {i b : ℕ} {v : MapValueType ι}
    (hv : x'.value i = v) (hb : ∀ j, x.entries j = some b → j = i)
    (hentries : ∀ j, j ≠ i → x'.entries j = x.entries j)
    (hmemory : ∀ a, a ≠ b → x'.memory a = x.memory a) (hnext : x.next ≤ x'.next)
    (hi : ∀ a, x'.entries i = some a → a = b ∧ b < x'.next ∧ x'.memory b = some v)
    (hstays : ∀ a, x.entries i = some a → a = b) : Becomes x x' i v := by
  have hne : ∀ {j a}, j ≠ i → x.entries j = some a → a ≠ b := by
    intro j a hj ha hab
    exact hj (hb j (hab ▸ ha))
  have hvalue : ∀ j, j ≠ i → x'.value j = x.value j := by
    intro j hj
    unfold SharedMap.value
    rw [hentries j hj]
    cases ha : x.entries j with
    | none => rfl
    | some a => rw [Option.bind_some, Option.bind_some, hmemory a (hne hj ha)]
  refine ⟨⟨fun {j a} ha => ?_, fun {j k a} hj hk => ?_, fun {j a} ha => ?_⟩, hv,
    fun j hj => ⟨hentries j hj, hvalue j hj⟩, fun a ha hp => ?_⟩
  · by_cases hj : j = i
    · obtain ⟨rfl, hlt, -⟩ := hi a (hj ▸ ha)
      exact hlt
    · exact (h.lt (hentries j hj ▸ ha)).trans_le hnext
  · by_cases hji : j = i
    · by_cases hki : k = i
      · rw [hji, hki]
      · exact absurd (hi a (hji ▸ hj)).1 (hne hki (hentries k hki ▸ hk))
    · by_cases hki : k = i
      · exact absurd (hi a (hki ▸ hk)).1 (hne hji (hentries j hji ▸ hj))
      · exact h.inj (hentries j hji ▸ hj) (hentries k hki ▸ hk)
  · by_cases hj : j = i
    · obtain ⟨rfl, -, hm⟩ := hi a (hj ▸ ha)
      rw [hj, hv]
      exact hm
    · have hja := hentries j hj ▸ ha
      rw [hmemory a (hne hj hja), hvalue j hj]
      exact h.memory hja
  · obtain ⟨c, hc⟩ := Option.ne_none_iff_exists'.mp hp
    rw [hc, (hi c hc).1, hstays a ha]

theorem Wf.find {x : SharedMap ι} (h : x.Wf) (i : ℕ) : Becomes x (x.find i).1 i (x.value i) ∧
    (x.find i).1.entries i = some (x.find i).2 := by
  unfold SharedMap.find
  cases hi : x.entries i with
  | some a => exact ⟨⟨h, rfl, fun _ _ => ⟨rfl, rfl⟩, fun _ ha _ => ha⟩, hi⟩
  | none =>
    have hvalue : x.value i = ⟨.free, 0⟩ := by simp [SharedMap.value, hi]
    constructor
    · rw [hvalue]
      apply h.becomes (b := x.next)
      · simp [SharedMap.value]
      · exact fun j hj => absurd (h.lt hj) (lt_irrefl _)
      · exact fun j hj => Function.update_of_ne hj ..
      · exact fun a ha => Function.update_of_ne ha ..
      · exact Nat.le_succ _
      · intro a ha
        simpa [eq_comm] using ha
      · simp [hi]
    · simp

theorem Wf.write {x : SharedMap ι} (h : x.Wf) {i a : ℕ} (hi : x.entries i = some a)
    (v : MapValueType ι) :
    Becomes x (x.write a v) i v := by
  apply h.becomes (b := a)
  · simp [SharedMap.value, SharedMap.write, hi]
  · exact fun j hj => h.inj hj hi
  · exact fun j _ => rfl
  · exact fun b hb => Function.update_of_ne hb ..
  · exact le_rfl
  · intro b hb
    obtain rfl : a = b := Option.some.inj (hi.symm.trans hb)
    exact ⟨rfl, h.lt hi, Function.update_self ..⟩
  · exact fun b hb => Option.some.inj (hb.symm.trans hi)

theorem Wf.erase {x : SharedMap ι} (h : x.Wf) {i a : ℕ} (hi : x.entries i = some a) :
    Becomes x (x.erase i) i ⟨.free, 0⟩ ∧ (x.erase i).entries i = none := by
  unfold SharedMap.erase
  simp only [hi]
  constructor
  · apply h.becomes (b := a)
    · simp [SharedMap.value]
    · exact fun j hj => h.inj hj hi
    · exact fun j hj => Function.update_of_ne hj ..
    · exact fun b hb => Function.update_of_ne hb ..
    · exact le_rfl
    · simp
    · exact fun b hb => Option.some.inj (hb.symm.trans hi)
  · simp

end SharedMap

/-! ### Threads -/

namespace LockFile

/-- What a thread calls. -/
inductive Call where
  | lock (index : ℕ)
  | unlock (index : ℕ)
  deriving DecidableEq

/-- Where a thread stands: outside of `lock` and `unlock`, before it looks for
the entry it has counted itself in, on its way through the map as it was after
so many changes, at the mutex, or after it read a map that was changed meanwhile,
used memory that is gone or unlocked what it does not hold. -/
inductive Pc where
  | running
  | find (index : ℕ)
  | walk (index changes : ℕ)
  | wait (index address : ℕ)
  | undefined
  deriving DecidableEq

/-- A thread with the indices it has locked, the last one first, and its calls
to come. -/
structure Thread where
  pc : Pc
  held : List ℕ
  calls : List Call

/-- The index a thread waits for. -/
def Pc.waits : Pc → Option ℕ
  | running => none
  | find index => some index
  | walk index _ => some index
  | wait index _ => some index
  | undefined => none

section

variable {ι : Type} [DecidableEq ι]

/-- `LockFile::lock` up to where the mutex of the file is unlocked. -/
def lock (p : ι) (index : ℕ) (x : SharedMap ι) (t : Thread) :
    Option (SharedMap ι × Thread) :=
  let (x, address) := x.find index
  match x.memory address with
  | none => some (x, { t with pc := .undefined })
  | some value =>
    let x := x.write address { value with counter := value.counter + 1 }
    if value.counter = 0 then
      -- still under the mutex of the file
      (value.mutex.lock p).map fun mutex =>
        (x.write address ⟨mutex, value.counter + 1⟩, { t with held := index :: t.held })
    else some (x, { t with pc := .find index })

/-- `LockFile::unlock` -/
def unlock (p : ι) (index : ℕ) (x : SharedMap ι) (t : Thread) : SharedMap ι × Thread :=
  let (x, address) := x.find index
  match (x.memory address).bind fun value =>
      (value.mutex.unlock p).map fun mutex => (mutex, value.counter) with
  | none => (x, { t with pc := .undefined })
  | some (mutex, counter) =>
    let x := x.write address ⟨mutex, counter - 1⟩
    (if counter - 1 = 0 then x.erase index else x, { t with held := t.held.tail })

/-- The next step of the thread. -/
def Thread.step (p : ι) (x : SharedMap ι) (t : Thread) : Option (SharedMap ι × Thread) :=
  match t.pc with
  | .running =>
    match t.calls with
    | [] => none
    | .lock index :: calls => lock p index x { t with calls := calls }
    | .unlock index :: calls => some (unlock p index x { t with calls := calls })
  | .find index => some (x, { t with pc := .walk index x.changes })
  | .walk index changes =>
    -- the map is read outside of the mutex of the file
    if x.changes = changes then
      let (x, address) := x.find index
      some (x, { t with pc := .wait index address })
    else some (x, { t with pc := .undefined })
  | .wait index address =>
    match x.memory address with
    | none => some (x, { t with pc := .undefined })
    | some value => (value.mutex.lock p).map fun mutex =>
        (x.write address { value with mutex := mutex },
          { t with pc := .running, held := index :: t.held })
  | .undefined => none

/-- Threads that will make the calls, and no one has locked an index. -/
def start (calls : ι → List Call) : State ι (SharedMap ι) Thread :=
  ⟨.empty, fun p => ⟨.running, [], calls p⟩⟩

/-! ### Changes of the map -/

/-- The next call of the thread inserts an entry, or it erases one. -/
def Thread.Changes (t : Thread) (x : SharedMap ι) : Prop :=
  match t.pc, t.calls with
  | .running, .lock index :: _ => x.entries index = none
  | .running, .unlock index :: _ => (x.value index).counter ≤ 1
  | _, _ => False

/-- If the thread inserts or erases an entry, no one is looking through the map. -/
def Undisturbed (s : State ι (SharedMap ι) Thread) (p : ι) : Prop :=
  (s.locals p).Changes s.shared → ∀ q index changes, (s.locals q).pc ≠ .walk index changes

end

/-! ### Nested pairs -/

/-- Calls that unlock what is locked, the last index first, where the indices
are locked before. -/
def Nested : List ℕ → List Call → Prop
  | _, [] => True
  | held, .lock index :: calls => Nested (index :: held) calls
  | [], .unlock _ :: _ => False
  | last :: held, .unlock index :: calls => index = last ∧ Nested held calls

/-- The calls of scopes with a `Path::ScopedLock`, one after the other and in
each other. The lock keeps the index the path has when it is made. -/
inductive ScopedLocks : List Call → Prop
  | nil : ScopedLocks []
  | scope (index : ℕ) {body calls : List Call} (hb : ScopedLocks body) (hc : ScopedLocks calls) :
    ScopedLocks (.lock index :: body ++ .unlock index :: calls)

theorem ScopedLocks.nested_append {calls : List Call} (h : ScopedLocks calls) :
    ∀ {held : List ℕ} {rest : List Call}, Nested held rest → Nested held (calls ++ rest) := by
  induction h with
  | nil => exact id
  | scope index _ _ ihb ihc =>
    intro held rest hr
    rw [List.cons_append, List.cons_append, List.append_assoc, Nested, List.cons_append]
    exact ihb ⟨rfl, ihc hr⟩

/-- Scopes lock in nested pairs. -/
theorem ScopedLocks.nested {calls : List Call} (h : ScopedLocks calls) : Nested [] calls := by
  have hdone : Nested [] [] := trivial
  simpa using h.nested_append hdone

/-! ### What holds in every run -/

/-- How often the thread has begun to lock the index and has not unlocked it. -/
def Thread.wanted (t : Thread) (index : ℕ) : ℕ :=
  t.held.count index + if t.pc.waits = some index then 1 else 0

/-- The map and the threads that lock its indices, as they should be. -/
structure Locks {ι : Type} [Fintype ι] (s : State ι (SharedMap ι) Thread) : Prop where
  /-- One thread at most is between `lock` and `unlock` of an index. -/
  exclusive : ∀ p q i, i ∈ (s.locals p).held → i ∈ (s.locals q).held → p = q
  /-- The entry is there while someone holds the index or waits for it. -/
  present : ∀ p i, i ∈ (s.locals p).held ∨ (s.locals p).pc.waits = some i →
    ∃ address value, s.shared.entries i = some address ∧ s.shared.memory address = some value
  /-- The counter of an entry is how often its index is wanted. -/
  counter : ∀ i address value, s.shared.entries i = some address →
    s.shared.memory address = some value → value.counter = ∑ p, (s.locals p).wanted i
  /-- No one waits at the mutex of an erased entry. -/
  waits : ∀ p i address, (s.locals p).pc = .wait i address → s.shared.entries i = some address
  /-- No one has used or unlocked an erased entry, nor read the map while it was
  changed. -/
  defined : ∀ p, (s.locals p).pc ≠ .undefined

/-- What every step keeps. -/
structure Inv {ι : Type} [DecidableEq ι] [Fintype ι] (s : State ι (SharedMap ι) Thread) : Prop where
  wf : s.shared.Wf
  positive : ∀ i, s.shared.entries i ≠ none → 0 < (s.shared.value i).counter
  counter : ∀ i, (s.shared.value i).counter = ∑ p, (s.locals p).wanted i
  depth : ∀ i p, (s.shared.value i).mutex.depth p = (s.locals p).held.count i
  walks : ∀ p i n, (s.locals p).pc = .walk i n → s.shared.changes = n
  waits : ∀ p i a, (s.locals p).pc = .wait i a → s.shared.entries i = some a
  defined : ∀ p, (s.locals p).pc ≠ .undefined
  nested : ∀ p, Nested ((s.locals p).pc.waits.toList ++ (s.locals p).held) (s.locals p).calls

section

variable {ι : Type} [DecidableEq ι] [Fintype ι] {s s' : State ι (SharedMap ι) Thread}
  {x : SharedMap ι} {p : ι} {t : Thread} {i : ℕ} {v : MapValueType ι}

theorem sum_wanted (l : ι → Thread) (p : ι) (t : Thread) (i : ℕ) :
    ∑ q, (Function.update l p t q).wanted i + (l p).wanted i =
      ∑ q, (l q).wanted i + t.wanted i := by
  have hf : (fun q => (Function.update l p t q).wanted i) =
      Function.update (fun q => (l q).wanted i) p (t.wanted i) := by
    funext q
    exact Function.apply_update (fun _ t => Thread.wanted t i) l p t q
  have hrest := Finset.sum_erase_add Finset.univ (fun q => (l q).wanted i) (Finset.mem_univ p)
  rw [hf, Finset.sum_update_of_mem (Finset.mem_univ p), ← Finset.erase_eq]
  omega

/-- A step of a thread at one index that counts itself in or out and locks or
unlocks as the value of the index says. -/
theorem Inv.next (h : Inv s) (hb : s.shared.Becomes x i v)
    (hch : x.changes = s.shared.changes ∨ ∀ q j n, (s.locals q).pc ≠ .walk j n)
    (hpos : x.entries i ≠ none → 0 < v.counter)
    (hc : v.counter + (s.locals p).wanted i = (s.shared.value i).counter + t.wanted i)
    (hd : ∀ q, v.mutex.depth q = if q = p then t.held.count i else (s.shared.value i).mutex.depth q)
    (hothers : ∀ j, j ≠ i →
      t.held.count j = (s.locals p).held.count j ∧ t.wanted j = (s.locals p).wanted j)
    (hwalk : ∀ j n, t.pc = .walk j n → x.changes = n)
    (hw : ∀ j a, t.pc = .wait j a → x.entries j = some a) (hdef : t.pc ≠ .undefined)
    (hn : Nested (t.pc.waits.toList ++ t.held) t.calls) :
    Inv ⟨x, Function.update s.locals p t⟩ := by
  have hcounter : ∀ j, (x.value j).counter = ∑ q, (Function.update s.locals p t q).wanted j := by
    intro j
    have hsum := sum_wanted s.locals p t j
    have hold := h.counter j
    by_cases hj : j = i
    · subst hj
      rw [hb.value]
      omega
    · rw [(hb.others j hj).2]
      have := (hothers j hj).2
      omega
  have hsome : ∀ q j a, q ≠ p → (s.locals q).pc = .wait j a → x.entries j ≠ none := by
    intro q j a hq ha hnone
    have hle : (Function.update s.locals p t q).wanted j ≤
        ∑ r, (Function.update s.locals p t r).wanted j :=
      Finset.single_le_sum (f := fun r => (Function.update s.locals p t r).wanted j)
        (fun _ _ => Nat.zero_le _) (Finset.mem_univ q)
    rw [← hcounter j, Function.update_of_ne hq] at hle
    simp [SharedMap.value, hnone, Thread.wanted, ha, Pc.waits] at hle
  refine ⟨hb.wf, fun j hj => ?_, hcounter, fun j q => ?_, fun q j n hq => ?_, fun q j a ha => ?_,
    fun q => ?_, fun q => ?_⟩
  · by_cases hji : j = i
    · subst hji
      rw [hb.value]
      exact hpos hj
    · rw [(hb.others j hji).2]
      exact h.positive j ((hb.others j hji).1 ▸ hj)
  · have hold := h.depth j q
    by_cases hq : q = p
    · subst hq
      by_cases hji : j = i
      · subst hji
        rw [hb.value, hd q, if_pos rfl]
        simp
      · rw [(hb.others j hji).2, hold, ← (hothers j hji).1]
        simp
    · simp only [Function.update_of_ne hq]
      by_cases hji : j = i
      · subst hji
        rw [hb.value, hd q, if_neg hq, hold]
      · rw [(hb.others j hji).2, hold]
  · by_cases hqp : q = p
    · subst hqp
      exact hwalk j n (by simpa using hq)
    · have hold : (s.locals q).pc = .walk j n := by simpa [hqp] using hq
      rcases hch with hch | hch
      · exact hch.trans (h.walks q j n hold)
      · exact absurd hold (hch q j n)
  · by_cases hq : q = p
    · subst hq
      exact hw j a (by simpa using ha)
    · have haq : (s.locals q).pc = .wait j a := by simpa [hq] using ha
      have hold := h.waits q j a haq
      by_cases hji : j = i
      · subst hji
        exact hb.stays a hold (hsome q j a hq haq)
      · exact (hb.others j hji).1.trans hold
  · by_cases hq : q = p
    · subst hq
      simpa using hdef
    · simpa [hq] using h.defined q
  · by_cases hq : q = p
    · subst hq
      simpa using hn
    · simpa [hq] using h.nested q

theorem Inv.wanted_le (h : Inv s) (p : ι) (i : ℕ) :
    (s.locals p).wanted i ≤ (s.shared.value i).counter := by
  rw [h.counter]
  exact Finset.single_le_sum (f := fun q => (s.locals q).wanted i) (fun _ _ => Nat.zero_le _)
    (Finset.mem_univ p)

theorem Inv.wanted_add_le (h : Inv s) {q : ι} (hpq : p ≠ q) (i : ℕ) :
    (s.locals p).wanted i + (s.locals q).wanted i ≤ (s.shared.value i).counter := by
  rw [h.counter, ← Finset.sum_pair (f := fun q => (s.locals q).wanted i) hpq]
  exact Finset.sum_le_univ_sum_of_nonneg fun _ => Nat.zero_le _

theorem Thread.wanted_running {held : List ℕ} {calls : List Call} (j : ℕ) :
    Thread.wanted ⟨.running, held, calls⟩ j = held.count j := by
  simp [Thread.wanted, Pc.waits]

theorem Inv.lock (h : Inv s) {held : List ℕ} {calls : List Call}
    (ht : s.locals p = ⟨.running, held, .lock i :: calls⟩) (hp : Undisturbed s p)
    (hs : LockFile.lock p i s.shared ⟨.running, held, calls⟩ = some (x, t)) :
    Inv ⟨x, Function.update s.locals p t⟩ := by
  have hn : Nested (i :: held) calls := by simpa [ht, Pc.waits, Nested] using h.nested p
  have hdepth : (s.shared.value i).mutex.depth p = held.count i := by rw [h.depth, ht]
  have hch : (s.shared.find i).1.changes = s.shared.changes ∨
      ∀ q j n, (s.locals q).pc ≠ .walk j n := by
    cases hentry : s.shared.entries i with
    | none => exact Or.inr (hp (by rw [ht]; exact hentry))
    | some a => exact Or.inl (SharedMap.find_changes hentry)
  obtain ⟨hfind, hi⟩ := h.wf.find i
  unfold LockFile.lock at hs
  simp only [hfind.wf.memory hi, hfind.value] at hs
  have hcount := hfind.wf.write hi ⟨(s.shared.value i).mutex, (s.shared.value i).counter + 1⟩
  have hb := hfind.trans hcount (by simp [hi])
  split_ifs at hs with h0
  · obtain ⟨m, hm, he⟩ := Option.map_eq_some_iff.mp hs
    obtain ⟨rfl, rfl⟩ := Prod.mk.inj he
    have hlock := hcount.wf.write hi ⟨m, (s.shared.value i).counter + 1⟩
    apply h.next (hb.trans hlock (by simp [SharedMap.write, hi])) hch
    · exact fun _ => Nat.succ_pos _
    · simp only [ht, Thread.wanted_running, List.count_cons_self]
      omega
    · intro q
      rw [Mutex.lock_depth hm, hdepth, List.count_cons_self]
    · intro j hj
      simp [ht, Thread.wanted_running, List.count_cons_of_ne (Ne.symm hj)]
    · simp
    · simp
    · simp
    · simpa [Pc.waits] using hn
  · obtain ⟨rfl, rfl⟩ := Prod.mk.inj (Option.some.inj hs)
    apply h.next hb hch
    · exact fun _ => Nat.succ_pos _
    · simp only [ht, Thread.wanted_running]
      simp only [Thread.wanted, Pc.waits]
      simp
      omega
    · intro q
      by_cases hq : q = p
      · rw [if_pos hq, hq, hdepth]
      · rw [if_neg hq]
    · intro j hj
      simp [ht, Thread.wanted, Pc.waits, Ne.symm hj]
    · simp
    · simp
    · simp
    · simpa [Pc.waits] using hn

theorem Inv.unlock (h : Inv s) {held : List ℕ} {calls : List Call}
    (ht : s.locals p = ⟨.running, held, .unlock i :: calls⟩) (hp : Undisturbed s p)
    (hs : LockFile.unlock p i s.shared ⟨.running, held, calls⟩ = (x, t)) :
    Inv ⟨x, Function.update s.locals p t⟩ := by
  obtain ⟨rest, rfl, hn⟩ : ∃ rest, held = i :: rest ∧ Nested rest calls := by
    have hn := h.nested p
    rw [ht] at hn
    cases held with
    | nil => exact absurd hn id
    | cons last rest => exact ⟨rest, by rw [hn.1], hn.2⟩
  have hdepth : (s.shared.value i).mutex.depth p = rest.count i + 1 := by
    rw [h.depth, ht, List.count_cons_self]
  obtain ⟨m, hm⟩ := Mutex.exists_unlock (p := p) (m := (s.shared.value i).mutex) (by omega)
  obtain ⟨a, hentry⟩ : ∃ a, s.shared.entries i = some a := by
    by_contra hnone
    rw [not_exists, ← Option.eq_none_iff_forall_ne_some] at hnone
    simp [SharedMap.value, hnone, Mutex.depth] at hdepth
  obtain ⟨hfind, hi⟩ := h.wf.find i
  unfold LockFile.unlock at hs
  simp only [hfind.wf.memory hi, hfind.value, Option.bind_some, hm, Option.map_some,
    List.tail_cons] at hs
  obtain ⟨rfl, rfl⟩ := Prod.mk.inj hs
  have hwrite := hfind.wf.write hi ⟨m, (s.shared.value i).counter - 1⟩
  have hb := hfind.trans hwrite (by simp [hi])
  -- the thread itself is counted
  have hpos : 0 < (s.shared.value i).counter := by
    apply h.positive i
    rw [hentry]
    exact Option.some_ne_none a
  have hstep : ∀ {x v}, s.shared.Becomes x i v →
      (x.changes = s.shared.changes ∨ ∀ q j n, (s.locals q).pc ≠ .walk j n) →
      (x.entries i ≠ none → 0 < v.counter) → v.counter = (s.shared.value i).counter - 1 →
      (∀ q, v.mutex.depth q = m.depth q) →
      Inv ⟨x, Function.update s.locals p ⟨.running, rest, calls⟩⟩ := by
    intro x v hb hch hv hc hd
    apply h.next hb hch hv
    · simp only [ht, Thread.wanted_running, List.count_cons_self]
      omega
    · intro q
      rw [hd, Mutex.unlock_depth hm, hdepth, Nat.add_sub_cancel]
    · intro j hj
      simp [ht, Thread.wanted_running, List.count_cons_of_ne (Ne.symm hj)]
    · simp
    · simp
    · simp
    · simpa [Pc.waits] using hn
  split_ifs with h0
  · obtain ⟨herase, hnone⟩ := hwrite.wf.erase (i := i) hi
    apply hstep (hb.trans herase (by simp [SharedMap.write, hi]))
    · refine Or.inr (hp ?_)
      rw [ht]
      exact Nat.sub_eq_zero_iff_le.mp h0
    · exact fun hsome => absurd hnone hsome
    · exact h0.symm
    · intro q
      -- no one else holds what no one wants
      have hown : (s.locals p).wanted i = rest.count i + 1 := by
        rw [ht, Thread.wanted_running, List.count_cons_self]
      rw [Mutex.unlock_depth hm]
      split_ifs with hq
      · have hle := h.wanted_le p i
        show 0 = _
        omega
      · have hle := h.wanted_add_le (Ne.symm hq) i
        have hheld : (s.locals q).held.count i ≤ (s.locals q).wanted i := Nat.le_add_right _ _
        rw [h.depth]
        show 0 = _
        omega
  · apply hstep hb (Or.inl (SharedMap.find_changes hentry))
    · exact fun _ => Nat.pos_of_ne_zero h0
    · rfl
    · exact fun q => rfl

/-- The map begins to be read. -/
theorem Inv.find (h : Inv s) {held : List ℕ} {calls : List Call}
    (ht : s.locals p = ⟨.find i, held, calls⟩) :
    Inv ⟨s.shared, Function.update s.locals p ⟨.walk i s.shared.changes, held, calls⟩⟩ := by
  have hn := h.nested p
  rw [ht] at hn
  have hb : s.shared.Becomes s.shared i (s.shared.value i) :=
    ⟨h.wf, rfl, fun _ _ => ⟨rfl, rfl⟩, fun _ ha _ => ha⟩
  apply h.next hb (Or.inl rfl) (h.positive i)
  · simp [ht, Thread.wanted, Pc.waits]
  · intro q
    split_ifs with hq
    · rw [h.depth, hq, ht]
    · rfl
  · intro j _
    simp [ht, Thread.wanted, Pc.waits]
  · intro j n hj
    exact (Pc.walk.inj hj).2
  · simp
  · simp
  · exact hn

/-- The entry is there, as the thread is counted in it. -/
theorem Inv.walk (h : Inv s) {n : ℕ} {held : List ℕ} {calls : List Call}
    (ht : s.locals p = ⟨.walk i n, held, calls⟩) :
    Inv ⟨(s.shared.find i).1,
      Function.update s.locals p ⟨.wait i (s.shared.find i).2, held, calls⟩⟩ := by
  have hn := h.nested p
  rw [ht] at hn
  obtain ⟨hfind, hi⟩ := h.wf.find i
  have hpos : 0 < (s.shared.value i).counter := by
    have hle := h.wanted_le p i
    simp only [ht, Thread.wanted, Pc.waits, if_true] at hle
    omega
  obtain ⟨a, hentry⟩ : ∃ a, s.shared.entries i = some a := by
    by_contra hnone
    rw [not_exists, ← Option.eq_none_iff_forall_ne_some] at hnone
    simp [SharedMap.value, hnone] at hpos
  apply h.next hfind (Or.inl (SharedMap.find_changes hentry)) fun _ => hpos
  · simp [ht, Thread.wanted, Pc.waits]
  · intro q
    split_ifs with hq
    · rw [h.depth, hq, ht]
    · rfl
  · intro j _
    simp [ht, Thread.wanted, Pc.waits]
  · simp
  · intro j a hja
    obtain ⟨rfl, rfl⟩ := Pc.wait.inj hja
    exact hi
  · simp
  · exact hn

theorem Inv.wait (h : Inv s) {a : ℕ} {held : List ℕ} {calls : List Call}
    (ht : s.locals p = ⟨.wait i a, held, calls⟩) {m : Mutex ι}
    (hm : (s.shared.value i).mutex.lock p = some m) :
    Inv ⟨s.shared.write a { s.shared.value i with mutex := m },
      Function.update s.locals p ⟨.running, i :: held, calls⟩⟩ := by
  have hn := h.nested p
  rw [ht] at hn
  have hi : s.shared.entries i = some a := h.waits p i a (by rw [ht])
  have hdepth : (s.shared.value i).mutex.depth p = held.count i := by rw [h.depth, ht]
  apply h.next (h.wf.write hi _) (Or.inl rfl)
  · exact fun hsome => h.positive i hsome
  · simp [ht, Thread.wanted, Pc.waits]
  · intro q
    rw [Mutex.lock_depth hm, hdepth, List.count_cons_self]
  · intro j hj
    simp [ht, Thread.wanted, Pc.waits, Ne.symm hj]
  · simp
  · simp
  · simp
  · exact hn

/-- A step of a thread that disturbs no one keeps the locks in order. -/
theorem Inv.step (h : Inv s) (hp : Undisturbed s p)
    (hs : (s.locals p).step p s.shared = some (x, t)) :
    Inv ⟨x, Function.update s.locals p t⟩ := by
  obtain ⟨pc, held, calls, ht⟩ : ∃ pc held calls, s.locals p = ⟨pc, held, calls⟩ := ⟨_, _, _, rfl⟩
  rw [ht] at hs
  cases pc with
  | running =>
    cases calls with
    | nil => cases hs
    | cons call calls =>
      cases call with
      | lock i => exact h.lock ht hp hs
      | unlock i => exact h.unlock ht hp (Option.some.inj hs)
  | find i =>
    obtain ⟨rfl, rfl⟩ := Prod.mk.inj (Option.some.inj hs)
    exact h.find ht
  | walk i n =>
    have hn : s.shared.changes = n := h.walks p i n (by rw [ht])
    unfold Thread.step at hs
    simp only [hn, if_true] at hs
    obtain ⟨rfl, rfl⟩ := Prod.mk.inj (Option.some.inj hs)
    exact h.walk ht
  | wait i a =>
    have hi : s.shared.entries i = some a := h.waits p i a (by rw [ht])
    unfold Thread.step at hs
    simp only [h.wf.memory hi] at hs
    obtain ⟨m, hm, he⟩ := Option.map_eq_some_iff.mp hs
    obtain ⟨rfl, rfl⟩ := Prod.mk.inj he
    exact h.wait ht hm
  | undefined => cases hs

theorem inv_start {calls : ι → List Call} (hn : ∀ p, Nested [] (calls p)) : Inv (start calls) := by
  constructor
  · exact SharedMap.wf_empty
  · exact fun i hi => absurd rfl hi
  · intro i
    simp [start, SharedMap.value, SharedMap.empty, Thread.wanted, Pc.waits]
  · intro i p
    simp [start, SharedMap.value, SharedMap.empty, Mutex.depth]
  · simp [start]
  · simp [start]
  · simp [start]
  · exact hn

theorem Inv.runs (hruns : Runs Thread.step Undisturbed s s') (h : Inv s) : Inv s' := by
  induction hruns with
  | refl => exact h
  | tail _ hp hs ih =>
    obtain ⟨⟨x, t⟩, hx, rfl⟩ := Option.map_eq_some_iff.mp hs
    exact ih.step hp hx

theorem Inv.locks (h : Inv s) : Locks s := by
  have hvalue : ∀ {i a v}, s.shared.entries i = some a → s.shared.memory a = some v →
      s.shared.value i = v :=
    fun hi hv => Option.some.inj ((h.wf.memory hi).symm.trans hv)
  constructor
  · intro p q i hp hq
    apply Mutex.eq_of_depth_pos (m := (s.shared.value i).mutex)
    · rw [h.depth]
      exact List.count_pos_iff.mpr hp
    · rw [h.depth]
      exact List.count_pos_iff.mpr hq
  · intro p i hp
    have hwanted : 0 < (s.locals p).wanted i := by
      unfold Thread.wanted
      rcases hp with hp | hp
      · have := List.count_pos_iff.mpr hp
        omega
      · rw [if_pos hp]
        omega
    have hle := h.wanted_le p i
    cases hi : s.shared.entries i with
    | none =>
      simp only [SharedMap.value, hi] at hle
      exact absurd hwanted (by simpa using hle)
    | some a => exact ⟨a, _, rfl, h.wf.memory hi⟩
  · intro i a v hi hv
    rw [← hvalue hi hv, h.counter]
  · exact h.waits
  · exact h.defined

/-- **`LockFile` is a lock for each index.** However many threads lock and
unlock whatever indices in nested pairs, and in whatever order they take their
steps, as long as no one inserts or erases an entry while another one looks
through the map: one thread at most holds an index, the entry of an index is
there while someone holds it or waits for it and counts those who do, and no one
waits at, unlocks or otherwise uses an erased entry. -/
theorem locks_of_undisturbed {calls : ι → List Call} (hn : ∀ p, Nested [] (calls p))
    (hruns : Runs Thread.step Undisturbed (start calls) s) : Locks s :=
  (Inv.runs hruns (inv_start hn)).locks

end

/-! ### Runs of a few threads -/

/-- One thread locks an index and then another, and a second one the first index. -/
def twoCalls (p : Bool) : List Call :=
  cond p [.lock 5, .lock 7, .unlock 7, .unlock 5] [.lock 5, .unlock 5]

theorem nested_twoCalls (p : Bool) : Nested [] (twoCalls p) := by
  cases p with
  | false => exact (ScopedLocks.scope 5 .nil .nil).nested
  | true => exact (ScopedLocks.scope 5 (.scope 7 .nil .nil) .nil).nested

/-- Both entries are in the map before the second thread looks for its own. -/
theorem locks_of_undisturbed_two : ∃ s : State Bool (SharedMap Bool) Thread,
    (start twoCalls).steps Thread.step [true, false, true, false, false] = some s ∧
    (s.locals true).held = [7, 5] ∧ (s.locals false).pc = .wait 5 0 ∧ Locks s := by
  have hfirst : Runs Thread.step Undisturbed (start twoCalls) _ :=
    .tail (p := true) (.refl _) (fun _ => by rintro (_ | _) i n h <;> cases h) rfl
  have hsecond : Runs Thread.step Undisturbed (start twoCalls) _ :=
    .tail (p := false) hfirst (fun _ => by rintro (_ | _) i n h <;> cases h) rfl
  have hthird : Runs Thread.step Undisturbed (start twoCalls) _ :=
    .tail (p := true) hsecond (fun _ => by rintro (_ | _) i n h <;> cases h) rfl
  have hfourth : Runs Thread.step Undisturbed (start twoCalls) _ :=
    .tail (p := false) hthird (fun _ => by rintro (_ | _) i n h <;> cases h) rfl
  have hfifth : Runs Thread.step Undisturbed (start twoCalls) _ :=
    .tail (p := false) hfourth nofun rfl
  exact ⟨_, rfl, rfl, rfl, locks_of_undisturbed nested_twoCalls hfifth⟩

/-- One thread holds the second of two entries, and another one the first. -/
def threeCalls (p : Fin 3) : List Call :=
  if p = 0 then [.lock 1, .unlock 1] else [.lock 2, .unlock 2]

/-- The first entry is erased while a thread looks for the second. -/
theorem locks_disturbed :
    (∀ p, Nested [] (threeCalls p)) ∧ ∃ s : State (Fin 3) (SharedMap (Fin 3)) Thread,
    Runs Thread.step (fun _ _ => True) (start threeCalls) s ∧ ¬ Locks s := by
  constructor
  · intro p
    unfold threeCalls
    split_ifs
    · exact (ScopedLocks.scope 1 .nil .nil).nested
    · exact (ScopedLocks.scope 2 .nil .nil).nested
  · refine ⟨_, Runs.of_steps (show State.steps _ _ [0, 1, 2, 2, 0, 2] = _ from rfl), fun h =>
      h.defined 2 rfl⟩

end LockFile

end BeeFish
