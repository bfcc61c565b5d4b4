/-
# Standing on a deleted branch

A walk may stand on a branch that has been deleted since its last step. The
branch has lost its children and its data but not the link to its parent
(`Evolves`), so the walk can still go up, and comes to a branch that is there.
Of where a walk stands it matters only that it is below the start on the branch
at its bits, or on what is left of it (`Footing`): to the walk the trie is then
the one that is there now (`Footing.tracks`), and no deletion takes the footing
away (`Footing.evolves`).

Key definitions: `Footing`.
-/
import BeeFish.Keys

namespace BeeFish

open BitCode BitTree

/-- The walk below `r` stands on the branch at `w`, or on what is left of it
if it was deleted. -/
inductive Footing (Γ : Heap) (L : Layout) (r : List Bool) : ℕ → List Bool → Prop
  | live {w n} : L (r ++ w) = some n → Footing Γ L r n.place w
  | dead {w b i parent} : Γ i = some (.branch (.new parent)) → L.Gone i →
      L (r ++ (w ++ [b])) = none →
      Footing Γ L r parent w → Footing Γ L r i (w ++ [b])

namespace Footing

variable {db : Database} {Γ Γ' : Heap} {L L' : Layout} {r w : List Bool} {i : ℕ} {b : Bool}

theorem concat (h : Footing Γ L r i (w ++ [b])) :
    (∃ n, L (r ++ (w ++ [b])) = some n ∧ n.place = i) ∨
    ∃ parent, Γ i = some (.branch (.new parent)) ∧ L (r ++ (w ++ [b])) = none ∧
      Footing Γ L r parent w := by
  generalize hv : w ++ [b] = v at h
  cases h with
  | live hn => exact Or.inl ⟨_, hn, rfl⟩
  | dead hi _ hnone hparent =>
    obtain ⟨rfl, -⟩ := List.append_inj' hv rfl
    exact Or.inr ⟨_, hi, hnone, hparent⟩

/-- Where the tree goes on, the walk is on a branch of it. -/
theorem live_of_some (h : Footing Γ L r i w) {n : Node} (hn : L (r ++ w) = some n) :
    i = n.place := by
  cases h with
  | live hm => rw [Option.some.inj (hm.symm.trans hn)]
  | dead _ _ hnone _ =>
    rw [hnone] at hn
    cases hn

/-- What is left of a deleted branch goes nowhere but up. -/
theorem getBranch_of_none (h : Footing Γ L r i w) (hrep : Rep db Γ L) (hn : L (r ++ w) = none) :
    ∃ parent, db.getBranch i = .new parent := by
  cases h with
  | live hm =>
    rw [hm] at hn
    cases hn
  | dead hi _ _ _ => exact ⟨_, hrep.holds.getBranch hi⟩

theorem child_bne_zero (h : Footing Γ L r i w) (hrep : Rep db Γ L) (b : Bool) :
    ((db.getBranch i).child b != 0) = (L (r ++ (w ++ [b]))).isSome := by
  rw [← List.append_assoc]
  cases hn : L (r ++ w) with
  | some n => rw [h.live_of_some hn, hrep.getBranch hn, Layout.branch_child, hrep.place_bne_zero]
  | none =>
    obtain ⟨parent, hb⟩ := h.getBranch_of_none hrep hn
    have hnone : L (r ++ w ++ [b]) = none := by
      by_contra hsome
      obtain ⟨m, hm⟩ := Option.ne_none_iff_exists'.mp hsome
      obtain ⟨k, hk, -⟩ := hrep.closed hm
      rw [hn] at hk
      cases hk
    rw [hb, hnone]
    cases b <;> rfl

/-- The walk goes where the tree goes. -/
theorem tracks {M : Store} {path : List Key} (hrep : Rep db Γ L) (hM : Refines L M)
    (hp : (M path).isSome) :
    Tracks db (hrep.tree hM hp) fun (p : Path) w => Footing Γ L (bitsOf path) p.index w where
  canGo {p w} hR _ b := by
    have hcan : PathBase.canGo db p b = ((db.getBranch p.index).child b != 0) := by cases b <;> rfl
    rw [hcan, hR.child_bne_zero hrep, Rep.mem_tree]
  go {p w} hR _ b hm := by
    rw [Rep.mem_tree, ← List.append_assoc] at hm
    obtain ⟨m, hm⟩ := Option.isSome_iff_exists.mp hm
    obtain ⟨n, hn, -⟩ := hrep.closed hm
    have hgo : (PathBase.go db p b).2 = (Path.child db p.index b).2 ∧
        (PathBase.go db p b).1.index = (Path.child db p.index b).1 := by cases b <;>
          exact ⟨rfl, rfl⟩
    rw [hR.live_of_some hn, hrep.child_of_some hn hm] at hgo
    refine ⟨hgo.1, ?_⟩
    rw [hgo.2]
    exact .live (by rwa [← List.append_assoc])
  goUp {p w b} hR _ := by
    show Footing Γ L (bitsOf path) (db.getBranch p.index).parent w
    rcases hR.concat with ⟨n, hn, hi⟩ | ⟨parent, hi, -, hparent⟩
    · rw [← List.append_assoc] at hn
      obtain ⟨m, hm, -⟩ := hrep.closed hn
      rw [← hi, hrep.getBranch hn]
      show Footing Γ L (bitsOf path) (L.place (bitsOf path ++ w ++ [b]).dropLast) w
      rw [List.dropLast_concat, Layout.place_of hm]
      exact .live hm
    · rw [hrep.holds.getBranch hi]
      exact hparent
  isDeadEnd {p w} hR _ := by
    rw [Rep.mem_tree, Rep.mem_tree, ← hR.child_bne_zero hrep, ← hR.child_bne_zero hrep, Bool.not_or]
    show (db.getBranch p.index).isDeadEnd = _
    simp only [Branch.isDeadEnd, Branch.child, bne, Bool.not_not]
    rfl

/-- A walk keeps its footing while what stands below its start gets less. -/
theorem evolves {size : ℕ} (he : Evolves size Γ L Γ' L') (hrep : Rep db Γ L) (hr : (L' r).isSome)
    (hkeep : ∀ w m, L' (r ++ w) = some m → ∃ n, L (r ++ w) = some n ∧ n.place = m.place)
    (h : Footing Γ L r i w) : Footing Γ' L' r i w := by
  have hlive : ∀ {w : List Bool} {n : Node}, L (r ++ w) = some n → Footing Γ' L' r n.place w := by
    intro w
    induction w using List.reverseRecOn with
    | nil =>
      intro n hn
      obtain ⟨m, hm⟩ := Option.isSome_iff_exists.mp hr
      have hm' : L' (r ++ []) = some m := by rwa [List.append_nil]
      obtain ⟨n', hn', hsame⟩ := hkeep [] m hm'
      rw [Option.some.inj (hn.symm.trans hn'), hsame]
      exact .live hm'
    | append_singleton w b ih =>
      intro n hn
      cases hm : L' (r ++ (w ++ [b])) with
      | some m =>
        obtain ⟨n', hn', hsame⟩ := hkeep _ m hm
        rw [Option.some.inj (hn.symm.trans hn'), hsame]
        exact .live hm
      | none =>
        -- it is cut off, and what is left of it has the link to its parent
        rcases he.old hn with ⟨m, hm', -⟩ | ⟨hgone, hheap⟩
        · rw [hm] at hm'
          cases hm'
        · rw [← List.append_assoc, List.dropLast_concat] at hheap
          rw [← List.append_assoc] at hn
          obtain ⟨k, hk, -⟩ := hrep.closed hn
          rw [Layout.place_of hk] at hheap
          exact .dead hheap hgone hm (ih hk)
  induction h with
  | live hn => exact hlive hn
  | dead hi hg hnone _ ih =>
    obtain ⟨hi', hg'⟩ := he.gone hi hg
    refine .dead hi' hg' ?_ ih
    by_contra hsome
    obtain ⟨m, hm⟩ := Option.ne_none_iff_exists'.mp hsome
    obtain ⟨n, hn, -⟩ := hkeep _ m hm
    rw [hnone] at hn
    cases hn

end Footing

end BeeFish
