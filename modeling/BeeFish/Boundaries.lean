/-
# No dangling prefixes

Between two keys a branch of the trie is there only on the way to some key:
`clear(key)` cuts after the last fork on the way of the key, so that no part of
the way is left that leads nowhere. So a branch without children is at the end
of a key, and a path is a dead end exactly if there is no key below it
(`no_dangling_prefixes`).
-/
import BeeFish.Store

namespace BeeFish

open BitCode

variable {db : Database} {Γ : Heap} {L : Layout} {M : Store} {w : List Bool} {n : Node}

theorem Branch.isDeadEnd_iff {branch : Branch} : branch.isDeadEnd = true ↔
    ∀ c, branch.child c = 0 := by
  rw [Bool.forall_bool, Branch.isDeadEnd, Bool.and_eq_true, beq_iff_eq, beq_iff_eq]
  rfl

theorem Rep.child_eq_zero (h : Rep db Γ L) (hw : L w = some n) (c : Bool) :
    (db.getBranch n.place).child c = 0 ↔ L (w ++ [c]) = none := by
  rw [h.getBranch hw, Layout.branch_child, ← Option.not_isSome_iff_eq_none,
    ← h.place_ne_zero (by simp), not_not]

/-- Where the way ends it ends a key. -/
theorem Refines.exists_bitsOf (hM : Refines L M) (hL : L.WF) (hw : L w = some n)
    (hend : ∀ c, L (w ++ [c]) = none) :
    ∃ ks, (M ks).isSome ∧ w = bitsOf ks := by
  obtain ⟨ks, hks, hpre⟩ := hM.present hw
  refine ⟨ks, hks, ?_⟩
  by_contra hne
  obtain ⟨c, hc⟩ := Rep.prefix_child hpre (Ne.symm hne)
  rw [hM.isSome] at hks
  obtain ⟨m, hm⟩ := Option.isSome_iff_exists.mp hks
  obtain ⟨j, hj⟩ := hL.of_isPrefix hm hc
  rw [hend c] at hj
  cases hj

/-- A path is a dead end if there is no key below it. -/
theorem Refines.isDeadEnd_iff (hM : Refines L M) (hL : L.WF) {ks : List Key} :
    (∀ c, L (bitsOf ks ++ [c]) = none) ↔ ∀ js, js ≠ [] → M (ks ++ js) = none := by
  constructor
  · intro hend js hjs
    by_contra hne
    obtain ⟨n, hn⟩ : ∃ n, L (bitsOf (ks ++ js)) = some n := by
      rw [← Option.isSome_iff_exists, ← hM.isSome, Option.isSome_iff_ne_none]
      exact hne
    have hbelow : bitsOf ks ++ [true] <+: bitsOf (ks ++ js) :=
      bitsOf_below (List.prefix_append ks js) (by simpa using hjs)
    obtain ⟨m, hm⟩ := hL.of_isPrefix hn hbelow
    rw [hend true] at hm
    cases hm
  · intro hnone c
    by_contra hne
    obtain ⟨n, hn⟩ := Option.ne_none_iff_exists'.mp hne
    obtain ⟨ls, hls, hpre⟩ := hM.present hn
    obtain ⟨js, rfl⟩ := bitsOf_isPrefix.mp ((List.prefix_append _ [c]).trans hpre)
    have hjs : js ≠ [] := by
      rintro rfl
      rw [List.append_nil] at hpre
      exact not_concat_isPrefix hpre
    rw [hnone js hjs] at hls
    cases hls

/-- What is below a path of keys and ends a key ends some keys below the path. -/
theorem exists_bitsOf_of_append {ks ls : List Key} {v : List Bool}
    (h : bitsOf ks ++ v = bitsOf ls) : ∃ js, v = bitsOf js := by
  obtain ⟨js, rfl⟩ := bitsOf_isPrefix.mp (h ▸ List.prefix_append (bitsOf ks) v)
  rw [bitsOf_append] at h
  exact ⟨js, List.append_cancel_left h⟩

/-- **No dangling prefixes.** After any run of operations, a branch that is not
at the end of keys has a child, a way down from the end of keys that leads no
further leads to the end of keys, and a path of keys is a dead end exactly if
no key is left below it. -/
theorem no_dangling_prefixes (ops : List Op) :
    ∃ (answers : List Answer) (db : Database), runAll .create ops = some (answers, db) ∧
      (∀ w i, db.locate 0 w = some i → (∀ ks, w ≠ bitsOf ks) → ∃ c, (db.getBranch i).child c ≠ 0) ∧
      (∀ ks i v j, db.indexOf ks = some i → db.locate i v = some j →
        (∀ c, (db.getBranch j).child c = 0) →
        ∃ js, v = bitsOf js) ∧
      ∀ ks i count, db.indexOf ks = some i →
        (Path.isDeadEnd db ⟨i, count⟩ = true ↔ ∀ js, js ≠ [] →
          (applyAll .empty ops).2 (ks ++ js) = none) := by
  obtain ⟨db, he, Γ, L, h, hM⟩ := stores_create.runAll ops
  obtain ⟨r, hr, h0⟩ := h.root
  have hnode : ∀ {w i}, db.locate 0 w = some i → ∃ n, L w = some n ∧ n.place = i := by
    intro w i hw
    rw [← h0, h.locate hr, List.nil_append, Option.map_eq_some_iff] at hw
    exact hw
  refine ⟨_, db, he, fun w i hw hne => ?_, fun ks i v j hks hv hend => ?_, fun ks i count hks => ?_⟩
  · obtain ⟨n, hn, rfl⟩ := hnode hw
    by_contra hno
    have hend : ∀ c, L (w ++ [c]) = none := fun c => (h.child_eq_zero hn c).mp (by
      by_contra hc
      exact hno ⟨c, hc⟩)
    obtain ⟨ks, -, hks⟩ := hM.exists_bitsOf h.toWF hn hend
    exact hne ks hks
  · obtain ⟨n, hn, rfl⟩ := hnode hks
    rw [h.locate hn, Option.map_eq_some_iff] at hv
    obtain ⟨m, hm, rfl⟩ := hv
    obtain ⟨ls, -, hls⟩ := hM.exists_bitsOf h.toWF hm fun c => (h.child_eq_zero hm c).mp (hend c)
    exact exists_bitsOf_of_append hls
  · obtain ⟨n, hn, rfl⟩ := hnode hks
    rw [← hM.isDeadEnd_iff h.toWF]
    unfold Path.isDeadEnd
    rw [Branch.isDeadEnd_iff]
    exact forall_congr' fun c => h.child_eq_zero hn c

end BeeFish
