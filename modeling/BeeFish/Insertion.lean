/-
# Concurrent insertion

Any number of processes insert paths of keys, each `path[k1]…[kn]` from the
root. Whatever the order of their steps, the file stays laid out as a tree
(`Rep`): a branch is appended and linked by the process that has locked the
file, and its copy of the parent is the record as it stands, since no one else
writes. So the tree only grows, by the ways of the inserted paths
(`concurrent_insertion`), and some process can always take a step
(`insertion_progress`).

Key definitions: `System.inserting`, `Inserting`.
-/
import BeeFish.Processes
import BeeFish.Store

namespace BeeFish

open Interleave

/-- The calls that insert the paths and keep where they lead. -/
def insertCalls (paths : List (List Key)) : List Call :=
  paths.flatMap fun path => .root :: ((bitsOf path).map Call.go ++ [.keep path])

/-- Processes that insert paths into the file. -/
def System.inserting {ι : Type} (db : Database) (inserts : ι → List (List Key)) : System ι :=
  ⟨.unlocked ι db, fun p => .new 0 (insertCalls (inserts p))⟩

/-! ### Where a process stands -/

/-- The calls go along the ways of the paths and keep each at its end. -/
def Walks (paths : List (List Key)) : List Bool → List Call → Prop
  | _, [] => True
  | _, .root :: todo => Walks paths [] todo
  | w, .go bit :: todo =>
    (∃ path ∈ paths, w ++ [bit] <+: bitsOf path) ∧ Walks paths (w ++ [bit]) todo
  | w, .keep path :: todo => w = bitsOf path ∧ Walks paths w todo
  | _, .setData _ :: _ => False

/-- The paths still to be kept. -/
def keeps : List Call → List (List Key)
  | .keep path :: todo => path :: keeps todo
  | _ :: todo => keeps todo
  | [] => []

/-- A branch that stands in the file but is not linked. -/
structure Unlinked (Γ : Heap) (L : Layout) (n : Node) (new : ℕ) : Prop where
  record : Γ new = some (.branch (.new n.place))
  after : n.place < new
  free : ∀ u k, L u = some k → k.place ≠ new

/-- What a process that goes from the node at `w` knows. Once it has locked
the file, its copy of the branch is the record. -/
def Go.At (db : Database) (Γ : Heap) (L : Layout) (w : List Bool) (n : Node)
    (bit : Bool) : Go → Prop
  | getBranch => True
  | lock => True
  | getBranchAgain => True
  | lockNext branch => branch = L.branch w n ∧ L (w ++ [bit]) = none
  | size branch => branch = L.branch w n ∧ L (w ++ [bit]) = none
  | writeNext branch new => branch = L.branch w n ∧ L (w ++ [bit]) = none ∧ new = db.size
  | unlockNext branch new => branch = L.branch w n ∧ L (w ++ [bit]) = none ∧ Unlinked Γ L n new
  | setBranch branch =>
    ∃ new, branch = (L.branch w n).setChild bit new ∧ L (w ++ [bit]) = none ∧ Unlinked Γ L n new
  | unlock branch => ∃ m, L (w ++ [bit]) = some m ∧ m.place = branch.child bit

/-- The process stands at the node of `w` with its calls to come. -/
def Process.At (paths : List (List Key)) (db : Database) (Γ : Heap) (L : Layout) (t : Process)
    (w : List Bool) (n : Node) :
    Prop :=
  match t.pc with
  | .idle => Walks paths w t.todo
  | .go bit pc => Walks paths w (.go bit :: t.todo) ∧ pc.At db Γ L w n bit
  | .setData _ _ => False

theorem mono_put {L : Layout} {u : List Bool} {m : Node} (hu : L u = none) {v : List Bool}
    {k : Node} (hv : L v = some k) :
    L.put u m v = some k := by
  have hne : v ≠ u := fun he => by
    rw [he, hu] at hv
    cases hv
  rw [Layout.put_of_ne hne, hv]

section

variable {ι : Type} [DecidableEq ι] (L₀ : Layout) (inserts : ι → List (List Key))

/-- What the file holds: what it held at first and the ways of inserted paths. -/
structure Inserted (g : Heap × Layout) (db : Database) : Prop where
  rep : Rep db g.1 g.2
  old : ∀ {u n}, L₀ u = some n → g.2 u = some n
  new : ∀ {u n}, g.2 u = some n → L₀ u = some n ∨ ∃ p, ∃ path ∈ inserts p, u <+: bitsOf path

/-- What a process that inserts paths knows. -/
structure Inserting (p : ι) (g : Heap × Layout) (x : Shared ι) (t : Process) : Prop where
  depth : x.mutex.depth p = t.pc.depth
  stands : ∃ w n, g.2 w = some n ∧ n.place = t.index ∧ t.At (inserts p) x.database g.1 g.2 w n
  kept : ∀ e ∈ t.kept, ∃ m, g.2 (bitsOf e.1) = some m ∧ m.place = e.2
  keeps : t.kept.map Prod.fst ++ BeeFish.keeps t.todo = inserts p

variable {L₀ inserts} {g g' : Heap × Layout} {x x' : Shared ι} {p q : ι} {t : Process} {d : ℕ}

/-! ### A step of one process -/

/-- What a step of `p` does to the others: the layout only grows, and nothing
changes unless `p` has locked the file. -/
structure Grows (p : ι) (g g' : Heap × Layout) (x x' : Shared ι) : Prop where
  mono : ∀ {u n}, g.2 u = some n → g'.2 u = some n
  locked : x'.database = x.database ∧ g' = g ∨ 0 < x.mutex.depth p

theorem Grows.refl (p : ι) (g : Heap × Layout) (h : x'.database = x.database) : Grows p g g x x' :=
  ⟨id, Or.inl ⟨h, rfl⟩⟩

theorem Go.At.of_depth {db db' : Database} {Γ Γ' : Heap} {L L' : Layout} {w : List Bool} {n : Node}
    {bit : Bool} {pc : Go}
    (h : pc.At db Γ L w n bit) (hd : pc.depth = 0) : pc.At db' Γ' L' w n bit := by
  cases pc <;> first | exact h | cases hd

theorem Inserting.of_grows (h : Inserting inserts q g x t) (hg : Grows p g g' x x')
    (ht : Turn p x x' d) (hq : q ≠ p) :
    Inserting inserts q g' x' t where
  depth := (ht.others q hq).trans h.depth
  stands := by
    obtain ⟨w, n, hw, hn, hat⟩ := h.stands
    refine ⟨w, n, hg.mono hw, hn, ?_⟩
    rcases hg.locked with ⟨hdb, rfl⟩ | hp
    · rwa [hdb]
    · have hd : t.pc.depth = 0 := by
        by_contra hne
        exact hq (Mutex.eq_of_depth_pos (by rw [h.depth]; omega) hp)
      unfold Process.At at hat ⊢
      cases hpc : t.pc with
      | idle =>
        rw [hpc] at hat
        exact hat
      | go bit pc =>
        rw [hpc] at hat hd
        exact ⟨hat.1, hat.2.of_depth hd⟩
      | setData v pc =>
        rw [hpc] at hat
        exact hat
  kept e he := by
    obtain ⟨m, hm, hi⟩ := h.kept e he
    exact ⟨m, hg.mono hm, hi⟩
  keeps := h.keeps

/-- Where a process stands after a step of going. -/
def Go.After (db : Database) (g : Heap × Layout) (w : List Bool) (n : Node) (bit : Bool) :
    Go ⊕ ℕ → Prop
  | .inl pc => pc.At db g.1 g.2 w n bit
  | .inr index => ∃ m, g.2 (w ++ [bit]) = some m ∧ m.place = index

omit [DecidableEq ι] in
theorem Inserted.append {db : Database} (h : Inserted L₀ inserts g db) (parent : ℕ) :
    Inserted L₀ inserts (Function.update g.1 db.size (some (.branch (.new parent))), g.2)
      (db.getNextIndex parent).2 where
  rep := h.rep.append parent
  old := h.old
  new := h.new

omit [DecidableEq ι] in
theorem Inserted.link {db : Database} (h : Inserted L₀ inserts g db) {w : List Bool} {n : Node}
    (hw : g.2 w = some n)
    {bit : Bool} (hc : g.2 (w ++ [bit]) = none) {new : ℕ} (hnew : Unlinked g.1 g.2 n new)
    (hpath : ∃ p, ∃ path ∈ inserts p, w ++ [bit] <+: bitsOf path) :
    Inserted L₀ inserts
      (Function.update g.1 n.place (some (.branch ((g.2.branch w n).setChild bit new))),
      g.2.put (w ++ [bit]) ⟨new, none⟩)
        (db.setBranch n.place ((g.2.branch w n).setChild bit new)) where
  rep := h.rep.link hw hc hnew.record hnew.after hnew.free
  old hu := mono_put hc (h.old hu)
  new {u k} hu := by
    rcases Layout.put_eq_some hu with ⟨rfl, -⟩ | ⟨-, hu⟩
    · exact Or.inr hpath
    · exact h.new hu

/-- One step of going to the child of the node at `w`. -/
theorem Go.step_at {index : ℕ} {bit : Bool} {pc : Go} {r : Go ⊕ ℕ}
    (h : pc.step p index bit x = some (x', r))
    (hd : x.mutex.depth p = pc.depth) (hx : Inserted L₀ inserts g x.database)
    {w : List Bool} {n : Node}
    (hw : g.2 w = some n) (hn : n.place = index)
    (hpath : ∃ p, ∃ path ∈ inserts p, w ++ [bit] <+: bitsOf path)
    (hat : pc.At x.database g.1 g.2 w n bit) :
    ∃ g', Turn p x x' (r.elim Go.depth fun _ => 0) ∧ Inserted L₀ inserts g' x'.database ∧
      Grows p g g' x x' ∧
      Go.After x'.database g' w n bit r := by
  subst hn
  cases pc with
  | getBranch =>
    obtain ⟨ht, rfl, rfl⟩ := Turn.of_some x h rfl hd
    rw [hx.rep.getBranch hw, Layout.branch_child]
    cases hc : g.2 (w ++ [bit]) with
    | some m =>
      have hp := (hx.rep.place_pos (by simp) hc).ne'
      rw [Layout.place_of hc, if_neg hp]
      exact ⟨g, ht, hx, .refl p g rfl, m, hc, rfl⟩
    | none =>
      rw [Layout.place_of_none hc, if_pos rfl]
      exact ⟨g, ht, hx, .refl p g rfl, trivial⟩
  | lock =>
    obtain ⟨ht, hdb, rfl⟩ := Turn.of_lock h hd
    exact ⟨g, ht, hdb ▸ hx, .refl p g hdb, trivial⟩
  | getBranchAgain =>
    obtain ⟨ht, rfl, rfl⟩ := Turn.of_some x h rfl hd
    rw [hx.rep.getBranch hw, Layout.branch_child]
    cases hc : g.2 (w ++ [bit]) with
    | some m =>
      have hp := (hx.rep.place_pos (by simp) hc).ne'
      rw [Layout.place_of hc, if_neg hp]
      exact ⟨g, ht, hx, .refl p g rfl, m, hc, by rw [Layout.branch_child, Layout.place_of hc]⟩
    | none =>
      rw [Layout.place_of_none hc, if_pos rfl]
      exact ⟨g, ht, hx, .refl p g rfl, rfl, hc⟩
  | lockNext branch =>
    obtain ⟨ht, hdb, rfl⟩ := Turn.of_lock h hd
    exact ⟨g, ht, hdb ▸ hx, .refl p g hdb, hat⟩
  | size branch =>
    obtain ⟨ht, rfl, rfl⟩ := Turn.of_some x h rfl hd
    exact ⟨g, ht, hx, .refl p g rfl, hat.1, hat.2, rfl⟩
  | writeNext branch new =>
    obtain ⟨ht, rfl, rfl⟩ := Turn.of_some x h rfl hd
    obtain ⟨hb, hc, rfl⟩ := hat
    refine ⟨_, ht, hx.append n.place, ⟨id, Or.inr (by rw [hd]; exact Nat.two_pos)⟩, hb, hc,
      Function.update_self .., ?_, ?_⟩
    · exact hx.rep.holds.lt_size (hx.rep.branch hw)
    · exact fun u k hk => hx.rep.ne_size (hx.rep.branch hk)
  | unlockNext branch new =>
    obtain ⟨ht, hdb, rfl⟩ := Turn.of_unlock h hd
    obtain ⟨rfl, hc, hnew⟩ := hat
    exact ⟨g, ht, hdb ▸ hx, .refl p g hdb, new, rfl, hc, hnew⟩
  | setBranch branch =>
    obtain ⟨ht, rfl, rfl⟩ := Turn.of_some x h rfl hd
    obtain ⟨new, rfl, hc, hnew⟩ := hat
    refine ⟨_, ht, hx.link hw hc hnew hpath, ⟨mono_put hc, Or.inr (by rw [hd]; exact Nat.one_pos)⟩,
      ⟨new, none⟩,
      Layout.put_same .., ?_⟩
    simp
  | unlock branch =>
    obtain ⟨ht, hdb, rfl⟩ := Turn.of_unlock h hd
    exact ⟨g, ht, hdb ▸ hx, .refl p g hdb, hat⟩

/-- A call begins. -/
theorem Inserting.call {t' : Process} (hx : Inserted L₀ inserts g x.database)
    (ht : Inserting inserts p g x t)
    (hpc : t.pc = .idle) (h : t.call = some t') : Inserting inserts p g x t' := by
  obtain ⟨index, pc, todo, kept⟩ := t
  obtain ⟨hd, ⟨w, n, hw, hn, hat⟩, hk, hks⟩ := ht
  subst hpc
  cases todo with
  | nil => cases h
  | cons c todo =>
    cases c with
    | root =>
      obtain rfl := Option.some.inj h
      obtain ⟨r, hr, h0⟩ := hx.rep.root
      exact ⟨hd, ⟨[], r, hr, h0, hat⟩, hk, hks⟩
    | go bit =>
      obtain rfl := Option.some.inj h
      exact ⟨hd, ⟨w, n, hw, hn, hat, trivial⟩, hk, hks⟩
    | setData value => exact absurd hat id
    | keep path =>
      obtain rfl := Option.some.inj h
      obtain ⟨rfl, hat⟩ : w = bitsOf path ∧ Walks (inserts p) w todo := hat
      refine ⟨hd, ⟨_, n, hw, hn, hat⟩, fun e he => ?_, ?_⟩
      · rcases List.mem_append.mp he with he | he
        · exact hk e he
        · obtain rfl := List.mem_singleton.mp he
          exact ⟨n, hw, hn⟩
      · simpa [BeeFish.keeps] using hks

theorem Inserting.step {t' : Process} (hx : Inserted L₀ inserts g x.database)
    (ht : Inserting inserts p g x t)
    (h : t.step p x = some (x', t')) :
    ∃ g' d, Inserted L₀ inserts g' x'.database ∧ Inserting inserts p g' x' t' ∧ Grows p g g' x x' ∧
      Turn p x x' d := by
  unfold Process.step at h
  cases hpc : t.pc with
  | idle =>
    rw [hpc] at h
    obtain ⟨y, hy, he⟩ := Option.map_eq_some_iff.mp h
    obtain ⟨rfl, rfl⟩ := Prod.mk.inj he
    exact ⟨g, _, hx, ht.call hx hpc hy, .refl p g rfl, rfl, fun _ _ => rfl⟩
  | go bit pc =>
    rw [hpc] at h
    obtain ⟨⟨y, r⟩, hy, he⟩ := Option.map_eq_some_iff.mp h
    obtain ⟨rfl, rfl⟩ := Prod.mk.inj he
    obtain ⟨w, n, hw, hn, hat⟩ := ht.stands
    unfold Process.At at hat
    rw [hpc] at hat
    obtain ⟨⟨hpath, hwalks⟩, hat⟩ := hat
    have hd := ht.depth
    rw [hpc] at hd
    obtain ⟨g', hturn, hx', hg, hafter⟩ := Go.step_at hy hd hx hw hn ⟨p, hpath⟩ hat
    have hkept : ∀ e ∈ t.kept, ∃ m, g'.2 (bitsOf e.1) = some m ∧ m.place = e.2 := fun e he => by
      obtain ⟨m, hm, hi⟩ := ht.kept e he
      exact ⟨m, hg.mono hm, hi⟩
    refine ⟨g', _, hx', ?_, hg, hturn⟩
    cases r with
    | inl pc' =>
      exact ⟨hturn.self, ⟨w, n, hg.mono hw, hn, ⟨hpath, hwalks⟩, hafter⟩, hkept, ht.keeps⟩
    | inr i =>
      obtain ⟨m, hm, hi⟩ := hafter
      exact ⟨hturn.self, ⟨w ++ [bit], m, hm, hi, hwalks⟩, hkept, ht.keeps⟩
  | setData value pc =>
    obtain ⟨w, n, -, -, hat⟩ := ht.stands
    unfold Process.At at hat
    rw [hpc] at hat
    exact absurd hat id

/-! ### Runs -/

/-- Steps of processes in any order. -/
abbrev System.Reaches (s s' : System ι) : Prop := Runs Process.step (fun _ _ => True) s s'

variable {s s' : System ι}

theorem insertion_invariant (h : s.Reaches s')
    (hs : Sound (fun g x => Inserted L₀ inserts g x.database) (Inserting inserts) g s) :
    ∃ g', Sound (fun g x => Inserted L₀ inserts g x.database) (Inserting inserts) g' s' := by
  refine h.invariant ?_ hs
  intro s p g x t _ hs hstep
  obtain ⟨g', d, hx, ht, hg, hturn⟩ := Inserting.step hs.shared (hs.locals p) hstep
  exact ⟨g', hx, ht, fun q hq => (hs.locals q).of_grows hg hturn hq⟩

theorem walks_append (paths : List (List Key)) (path : List Key) (hpath : path ∈ paths)
    {todo : List Call}
    (h : Walks paths (bitsOf path) todo) : ∀ {v w : List Bool}, w ++ v = bitsOf path →
    Walks paths w (v.map Call.go ++ .keep path :: todo)
  | [], w, hw => by
    rw [List.append_nil] at hw
    subst hw
    exact ⟨rfl, h⟩
  | c :: v, w, hw => by
    have hw' : w ++ [c] ++ v = bitsOf path := by simpa using hw
    exact ⟨⟨path, hpath, v, hw'⟩, walks_append paths path hpath h hw'⟩

theorem walks_insertCalls {paths : List (List Key)} : ∀ {todo : List (List Key)},
    todo ⊆ paths → ∀ w,
    Walks paths w (insertCalls todo)
  | [], _, _ => trivial
  | path :: todo, h, w => by
    have hc : insertCalls (path :: todo) =
        .root :: ((bitsOf path).map Call.go ++ .keep path :: insertCalls todo) := by
      simp [insertCalls]
    rw [hc]
    exact walks_append paths path (h List.mem_cons_self)
      (walks_insertCalls (fun k hk => h (List.mem_cons_of_mem _ hk)) _) (List.nil_append _)

theorem keeps_append (todo : List Call) :
    ∀ bits : List Bool, keeps (bits.map Call.go ++ todo) = keeps todo
  | [] => rfl
  | _ :: bits => keeps_append todo bits

theorem keeps_insertCalls : ∀ paths : List (List Key), keeps (insertCalls paths) = paths
  | [] => rfl
  | path :: paths => by
    have hc : insertCalls (path :: paths) =
        .root :: ((bitsOf path).map Call.go ++ .keep path :: insertCalls paths) := by
      simp [insertCalls]
    rw [hc]
    show keeps ((bitsOf path).map Call.go ++ .keep path :: insertCalls paths) = path :: paths
    rw [keeps_append, keeps, keeps_insertCalls]

/-- Before the first step. -/
theorem insertion_start {db : Database} {Γ : Heap} {L : Layout} (h : Rep db Γ L)
    (inserts : ι → List (List Key)) :
    Sound (fun g x => Inserted L inserts g x.database) (Inserting inserts) (Γ, L)
      (System.inserting db inserts) where
  shared := ⟨h, id, Or.inl⟩
  locals p := by
    obtain ⟨r, hr, h0⟩ := h.root
    exact ⟨rfl, ⟨[], r, hr, h0, walks_insertCalls (List.Subset.refl _) []⟩, nofun,
      keeps_insertCalls _⟩

/-! ### What holds in every order of steps -/

/-- Links that are there lead where they led. -/
def Database.KeepsLinks (db db' : Database) : Prop :=
  ∀ w i c, db.locate 0 w = some i → (db.getBranch i).child c ≠ 0 →
    (db'.getBranch i).child c = (db.getBranch i).child c

/-- No branch is the child of two links. -/
def Database.LinkedOnce (db : Database) : Prop :=
  ∀ w w' i j c c', db.locate 0 w = some i → db.locate 0 w' = some j → (db.getBranch i).child c ≠ 0 →
    (db.getBranch j).child c' = (db.getBranch i).child c → i = j ∧ c = c'

theorem Rep.locate_root {db : Database} {Γ : Heap} {L : Layout} (h : Rep db Γ L) (w : List Bool) :
    db.locate 0 w = (L w).map Node.place := by
  obtain ⟨r, hr, h0⟩ := h.root
  rw [← h0, h.locate hr, List.nil_append]

theorem Rep.exists_child {db : Database} {Γ : Heap} {L : Layout} (h : Rep db Γ L) {w : List Bool}
    {i : ℕ} {c : Bool}
    (hw : db.locate 0 w = some i) (hc : (db.getBranch i).child c ≠ 0) :
    ∃ n m, L w = some n ∧ n.place = i ∧ L (w ++ [c]) = some m ∧
      (db.getBranch i).child c = m.place := by
  rw [h.locate_root] at hw
  obtain ⟨n, hn, rfl⟩ := Option.map_eq_some_iff.mp hw
  rw [h.getBranch hn, Layout.branch_child] at hc ⊢
  obtain ⟨m, hm⟩ := Option.isSome_iff_exists.mp ((h.place_ne_zero (by simp)).mp hc)
  exact ⟨n, m, hn, rfl, hm, Layout.place_of hm⟩

theorem Rep.linkedOnce {db : Database} {Γ : Heap} {L : Layout} (h : Rep db Γ L) :
    db.LinkedOnce := by
  intro w w' i j c c' hw hw' hc he
  obtain ⟨n, m, hn, rfl, hm, hi⟩ := h.exists_child hw hc
  obtain ⟨n', m', hn', rfl, hm', hj⟩ := h.exists_child hw' (he ▸ hc)
  obtain ⟨rfl, hcc⟩ := List.append_inj' (h.inj hm' hm (by rw [← hi, ← hj, he])) rfl
  exact ⟨congrArg Node.place (Option.some.inj (hn.symm.trans hn')), (List.cons.inj hcc).1.symm⟩

theorem Rep.keepsLinks {db db' : Database} {Γ Γ' : Heap} {L L' : Layout} (h : Rep db Γ L)
    (h' : Rep db' Γ' L')
    (hL : ∀ {u n}, L u = some n → L' u = some n) : db.KeepsLinks db' := by
  intro w i c hw hc
  obtain ⟨n, m, hn, rfl, hm, hi⟩ := h.exists_child hw hc
  rw [hi, h'.getBranch (hL hn), Layout.branch_child, Layout.place_of (hL hm)]

/-- **Concurrent insertion is safe.** After any run of operations let any number
of processes insert paths. In every state that any order of their steps comes
to, links that are there stay as they are in all later states, no branch is
the child of two links, and whatever path two processes have inserted has led
both to the same index. When all have finished, each has kept all its paths,
and the paths in the file are those that were there and the inserted ones with
the paths above them. -/
theorem concurrent_insertion (ops : List Op) (inserts : ι → List (List Key)) :
    ∃ (answers : List Answer) (db : Database), runAll .create ops = some (answers, db) ∧
      ∀ s, (System.inserting db inserts).Reaches s →
        (∀ s', s.Reaches s' → s.shared.database.KeepsLinks s'.shared.database) ∧
        s.shared.database.LinkedOnce ∧
        (∀ p q path i j, (path, i) ∈ (s.locals p).kept → (path, j) ∈ (s.locals q).kept → i = j) ∧
        ((∀ p, (s.locals p).finished) →
          (∀ p, (s.locals p).kept.map Prod.fst = inserts p) ∧
          ∀ path, (s.shared.database.indexOf path).isSome ↔
            ((applyAll .empty ops).2 path).isSome ∨ ∃ p, ∃ inserted ∈ inserts p,
              path <+: inserted) := by
  obtain ⟨db, he, Γ, L, h, hM⟩ := stores_create.runAll ops
  refine ⟨_, db, he, fun s hs => ?_⟩
  obtain ⟨g, hsound⟩ := insertion_invariant hs (insertion_start h inserts)
  have hrep := hsound.shared.rep
  refine ⟨fun s' hs' => ?_, hrep.linkedOnce, fun p q path i j hi hj => ?_, fun hfin => ?_⟩
  · have hfrom : Sound (fun g' x => Inserted g.2 inserts g' x.database) (Inserting inserts) g s :=
      ⟨⟨hrep, id, Or.inl⟩, hsound.locals⟩
    obtain ⟨g', hsound'⟩ := insertion_invariant hs' hfrom
    exact hrep.keepsLinks hsound'.shared.rep hsound'.shared.old
  · obtain ⟨m, hm, hi⟩ := (hsound.locals p).kept _ hi
    obtain ⟨m', hm', hj⟩ := (hsound.locals q).kept _ hj
    obtain rfl := Option.some.inj (hm.symm.trans hm')
    exact hi.symm.trans hj
  · have hkept : ∀ p, (s.locals p).kept.map Prod.fst = inserts p := fun p => by
      have hks := (hsound.locals p).keeps
      rwa [(hfin p).2, BeeFish.keeps, List.append_nil] at hks
    refine ⟨hkept, fun path => ?_⟩
    rw [hrep.indexOf, Option.isSome_map, hM.isSome]
    constructor
    · intro hpath
      obtain ⟨n, hn⟩ := Option.isSome_iff_exists.mp hpath
      rcases hsound.shared.new hn with hold | ⟨p, inserted, hin, hpre⟩
      · exact Or.inl (by rw [hold]; rfl)
      · exact Or.inr ⟨p, inserted, hin, bitsOf_isPrefix.mp hpre⟩
    · rintro (hold | ⟨p, inserted, hin, hpre⟩)
      · obtain ⟨n, hn⟩ := Option.isSome_iff_exists.mp hold
        rw [hsound.shared.old hn]
        rfl
      · rw [← hkept p] at hin
        obtain ⟨e, he, rfl⟩ := List.mem_map.mp hin
        obtain ⟨m, hm, -⟩ := (hsound.locals p).kept e he
        obtain ⟨n, hn⟩ := hrep.of_isPrefix hm (bitsOf_isPrefix.mpr hpre)
        rw [hn]
        rfl

/-! ### Some process can go on -/

/-- A process that may lock the file can take its step of going. -/
theorem Go.exists_step (index : ℕ) (bit : Bool) (pc : Go) (hd : x.mutex.depth p = pc.depth)
    (hm : x.mutex = .free ∨ 0 < x.mutex.depth p) : ∃ r, pc.step p index bit x = some r := by
  have hlock : ∀ {ρ : Type} (r : ρ), ∃ y, (x.lock p).map (fun x => (x, r)) = some y := fun r => by
    obtain ⟨m, hm⟩ := Mutex.exists_lock hm
    exact ⟨_, by rw [Shared.lock, hm]; rfl⟩
  have hunlock : ∀ {ρ : Type} (r : ρ),
    0 < pc.depth → ∃ y, (x.unlock p).map (fun x => (x, r)) = some y := fun r h => by
    obtain ⟨m, hm⟩ := Mutex.exists_unlock (m := x.mutex) (p := p) (by rwa [hd])
    exact ⟨_, by rw [Shared.unlock, hm]; rfl⟩
  cases pc with
  | lock => exact hlock _
  | lockNext b => exact hlock _
  | unlockNext b new => exact hunlock _ Nat.two_pos
  | unlock b => exact hunlock _ Nat.one_pos
  | getBranch => exact ⟨_, rfl⟩
  | getBranchAgain => exact ⟨_, rfl⟩
  | size b => exact ⟨_, rfl⟩
  | writeNext b new => exact ⟨_, rfl⟩
  | setBranch b => exact ⟨_, rfl⟩

theorem Inserting.exists_step (ht : Inserting inserts p g x t) (hfin : ¬ t.finished)
    (hm : x.mutex = .free ∨ 0 < x.mutex.depth p) : ∃ r, t.step p x = some r := by
  obtain ⟨w, n, -, -, hat⟩ := ht.stands
  have hd := ht.depth
  unfold Process.At at hat
  unfold Process.step
  cases hpc : t.pc with
  | idle =>
    obtain ⟨index, pc, todo, kept⟩ := t
    cases todo with
    | nil => exact absurd ⟨hpc, rfl⟩ hfin
    | cons c todo => cases c <;> exact ⟨_, rfl⟩
  | go bit pc =>
    rw [hpc] at hd
    obtain ⟨r, hr⟩ := Go.exists_step t.index bit pc hd hm
    exact ⟨_, by simp only [hr]; rfl⟩
  | setData v pc =>
    rw [hpc] at hat
    exact absurd hat id

/-- While a process has not finished, some process can take a step: the one
that has locked the file, or else any. -/
theorem insertion_progress (ops : List Op) (inserts : ι → List (List Key)) :
    ∃ (answers : List Answer) (db : Database), runAll .create ops = some (answers, db) ∧
      ∀ s, (System.inserting db inserts).Reaches s → (∃ p, ¬ (s.locals p).finished) →
        ∃ q s', s.step Process.step q = some s' := by
  obtain ⟨db, he, Γ, L, h, -⟩ := stores_create.runAll ops
  refine ⟨_, db, he, fun s hs ⟨p, hfin⟩ => ?_⟩
  obtain ⟨g, hsound⟩ := insertion_invariant hs (insertion_start h inserts)
  obtain ⟨q, r, hr⟩ : ∃ q r, (s.locals q).step q s.shared = some r := by
    by_cases hm : s.shared.mutex = .free
    · obtain ⟨r, hr⟩ := (hsound.locals p).exists_step hfin (Or.inl hm)
      exact ⟨p, r, hr⟩
    · obtain ⟨q, hq⟩ := Mutex.exists_depth_pos hm
      have hne : ¬ (s.locals q).finished := fun hf => by
        rw [(hsound.locals q).depth, hf.1] at hq
        exact absurd hq (Nat.lt_irrefl 0)
      obtain ⟨r, hr⟩ := (hsound.locals q).exists_step hne (Or.inr hq)
      exact ⟨q, r, hr⟩
  exact ⟨q, _, by rw [State.step, hr]; rfl⟩

end

end BeeFish
