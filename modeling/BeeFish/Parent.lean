/-
# The way up

`Path::parent` (Database/Path.hpp) reads a key off the links from its end to
its start. A left bit counts up and a right bit down, so the count comes back
to zero where the key starts, and not before: the walk stops there, at the
path that the key was taken from (`Path.parentFrom_key`). The comparison with
the root of the database stops it nowhere else as long as the root is itself
at the end of a key. So going up a chain of keys gives them in reverse
(`parent_undoes`).

Key definitions: `Path.parent`, `Path.parents`.
-/
import BeeFish.File

namespace BeeFish

open BitCode

namespace Path

/-- `Path::parent(stack)` -/
def parent (rootIndex : ℕ) (db : Database) (path : Path) (stack : Stack) :
    Option (Path × Stack) := do
  let (index, bits) ← parentFrom rootIndex db (depth db) path.index 0 stack.bits
  return (⟨index, 0⟩, ⟨bits, 0, 0⟩)

/-- `path = path.parent(stack)` again and again, each time with the stack
cleared: what it held after each, and the path at last. -/
def parents (rootIndex : ℕ) (db : Database) : ℕ → Path → Option (List (List Bool) × Path)
  | 0, path => some ([], path)
  | n + 1, path => do
    let (path, stack) ← parent rootIndex db path .empty
    let (keys, path) ← parents rootIndex db n path
    return (stack.bits :: keys, path)

end Path

section

variable {db : Database} {Γ : Heap} {L : Layout} {M : Store} {r ks : List Key} {j m n : Node}

theorem Rep.parent (h : Rep db Γ L) (hM : Refines L M) (hroot : L (bitsOf r) = some j)
    (hm : L (bitsOf ks) = some m) {key : Key}
    (hn : L (bitsOf ks ++ key.bits) = some n) (count : ℤ) (stack : Stack) :
    Path.parent j.place db ⟨n.place, count⟩ stack =
      some (⟨m.place, 0⟩, ⟨key.bits ++ stack.bits.reverse, 0, 0⟩) := by
  unfold Path.parent
  rw [Path.parentFrom_key h hM hroot hm hn]
  rfl

/-- A chain of keys is read off from its last to its first. -/
theorem Rep.parents (h : Rep db Γ L) (hM : Refines L M) (hroot : L (bitsOf r) = some j)
    (hm : L (bitsOf ks) = some m) :
    ∀ {js : List Key} {n : Node} {c : ℤ}, L (bitsOf ks ++ bitsOf js) = some n →
    ∃ p, Path.parents j.place db js.length ⟨n.place, c⟩ = some ((js.map Key.bits).reverse, p) ∧
      p.index = m.place := by
  intro js
  induction js using List.reverseRecOn with
  | nil =>
    intro n c hn
    rw [bitsOf_nil, List.append_nil, hm] at hn
    obtain rfl := Option.some.inj hn
    exact ⟨_, rfl, rfl⟩
  | append_singleton us key ih =>
    intro n c hn
    rw [← bitsOf_append, ← List.append_assoc, bitsOf_concat] at hn
    obtain ⟨k, hk⟩ := h.of_isPrefix hn (List.prefix_append _ _)
    have hup := h.parent hM hroot hk hn c .empty
    rw [bitsOf_append] at hk
    obtain ⟨p, hp, hindex⟩ := ih (c := 0) hk
    refine ⟨p, ?_, hindex⟩
    have hkey : key.bits ++ Stack.empty.bits.reverse = key.bits := List.append_nil _
    rw [List.length_append, List.length_singleton, Path.parents, hup, Option.bind_eq_bind,
      Option.bind_some]
    simp only [hp, hkey]
    simp

end

/-- **`parent` undoes indexing.** After any run of operations, wherever the
root of the database is the end of a path that is there, `p[key].parent(stack)`
is back at `p` and has put the bits of the key on the stack; and going up from
`p[k1]…[kn]` gives the keys from the last to the first, and `p`. -/
theorem parent_undoes (ops : List Op) (r ks : List Key) (hr : ((applyAll .empty ops).2 r).isSome) :
    ∃ (answers : List Answer) (db : Database), runAll .create ops = some (answers, db) ∧
      (∀ (key : Key) (stack : Stack),
        Path.parent (Path.getAll db .root r).1.index
            (Path.get (Path.getAll db .root ks).2 (Path.getAll db .root ks).1 key).2
            (Path.get (Path.getAll db .root ks).2 (Path.getAll db .root ks).1 key).1 stack =
          some (⟨(Path.getAll db .root ks).1.index, 0⟩, ⟨key.bits ++ stack.bits.reverse, 0, 0⟩)) ∧
      ∀ js : List Key, ∃ p : Path,
        Path.parents (Path.getAll db .root r).1.index
            (Path.getAll (Path.getAll db .root ks).2 (Path.getAll db .root ks).1 js).2 js.length
            (Path.getAll (Path.getAll db .root ks).2 (Path.getAll db .root ks).1 js).1 =
          some ((js.map Key.bits).reverse, p) ∧ p.index = (Path.getAll db .root ks).1.index := by
  obtain ⟨db, he, Γ, L, h, hM⟩ := stores_create.runAll ops
  obtain ⟨⟨j, hj, hr'⟩, -⟩ := h.getAll_root hM hr
  rw [List.append_nil] at hj
  obtain ⟨Γ₁, L₁, m, hm, h₁, hw₁, hg₁⟩ :=
    h.getAll ks (p := .root) h.root.choose_spec.1 h.root.choose_spec.2.symm
  rw [List.nil_append] at hw₁ hg₁
  have hM₁ := hM.grown h₁.toWF hg₁
  -- going on from the path keeps it where it is, and the root
  have hgo : ∀ js : List Key, ∃ (Γ' : Heap) (L' : Layout) (M' : Store) (n : Node),
      Rep (Path.getAll (Path.getAll db .root ks).2 (Path.getAll db .root ks).1 js).2 Γ' L' ∧
        Refines L' M' ∧
      n.place = (Path.getAll (Path.getAll db .root ks).2 (Path.getAll db .root ks).1 js).1.index ∧
      L' (bitsOf ks ++ bitsOf js) = some n ∧ L' (bitsOf ks) = some m ∧ L' (bitsOf r) = some j := by
    intro js
    obtain ⟨Γ', L', n, hn, h', hw, hg⟩ := h₁.getAll js hw₁ hm.symm
    have hM' := hM₁.grown h'.toWF (bitsOf_append ks js ▸ hg)
    exact ⟨Γ', L', _, n, h', hM', hn, hw, hg.old hw₁, hg.old (hg₁.old hj)⟩
  refine ⟨_, db, he, fun key stack => ?_, fun js => ?_⟩
  · obtain ⟨Γ', L', M', n, h', hM', hn, hw, hm', hj'⟩ := hgo [key]
    rw [bitsOf_singleton] at hw
    have hup :=
      h'.parent hM' hj' hm' hw (Path.getAll (Path.getAll db .root ks).2 (Path.getAll db .root ks).1
      [key]).1.count stack
    rw [hn, hm, ← hr'] at hup
    exact hup
  · obtain ⟨Γ', L', M', n, h', hM', hn, hw, hm', hj'⟩ := hgo js
    obtain ⟨p, hp, hindex⟩ := h'.parents hM' hj' hm' hw
      (c := (Path.getAll (Path.getAll db .root ks).2 (Path.getAll db .root ks).1 js).1.count)
    rw [hn, ← hr'] at hp
    exact ⟨p, hp, hindex.trans hm⟩

/-- Up from under a path, with the root of the database at another. -/
theorem parent_undoes_two :
    ∃ (answers : List Answer) (db : Database),
      runAll .create [⟨[.of 6], .hasData⟩] = some (answers, db) ∧
      (∀ (key : Key) (stack : Stack),
        Path.parent (Path.getAll db .root [.of 6]).1.index
            (Path.get (Path.getAll db .root [.of 6, .of 2]).2
              (Path.getAll db .root [.of 6, .of 2]).1 key).2
            (Path.get (Path.getAll db .root [.of 6, .of 2]).2
              (Path.getAll db .root [.of 6, .of 2]).1 key).1 stack =
          some (⟨(Path.getAll db .root [.of 6, .of 2]).1.index, 0⟩,
            ⟨key.bits ++ stack.bits.reverse, 0, 0⟩)) ∧
      ∀ js : List Key, ∃ p : Path,
        Path.parents (Path.getAll db .root [.of 6]).1.index
            (Path.getAll (Path.getAll db .root [.of 6, .of 2]).2
              (Path.getAll db .root [.of 6, .of 2]).1 js).2 js.length
            (Path.getAll (Path.getAll db .root [.of 6, .of 2]).2
              (Path.getAll db .root [.of 6, .of 2]).1 js).1 =
          some ((js.map Key.bits).reverse, p) ∧
            p.index = (Path.getAll db .root [.of 6, .of 2]).1.index :=
  parent_undoes [⟨[.of 6], .hasData⟩] [.of 6] [.of 6, .of 2]
    (by simp [applyAll, Op.apply, Action.apply, Store.visit])

end BeeFish
