/-
# Ids and their descendants

The ids below a node are those whose components go on after its own. In the
order of the bits they stand together, right after the ids with the same
components (`isPrefix_of_between`, `idBits_lt`). `startsWith`
(query/Iterable.hpp) reads the components of two ids side by side: it finds
whether those of the first are the beginning of those of the second, which
they also are if both are the same; and only of the root it asks that they are
the same (`startsWith_idBits`).

Key definitions: `startsWith`, `Begins`.
-/
import BeeFish.JSONKey
import BeeFish.Keys

namespace BeeFish

open BitCode

/-! ### Components and their bits -/

theorem encode_append_isPrefix {α : Type} [Encoded α] [LawfulEncoded α] {a b : α} {u v : List Bool}
    (h : encode a ++ u <+: encode b ++ v) : a = b ∧ u <+: v := by
  obtain ⟨t, ht⟩ := h
  rw [List.append_assoc] at ht
  obtain ⟨hab, huv⟩ := Closes.append_inj (LawfulEncoded.isCode a) (LawfulEncoded.isCode b) ht
  exact ⟨encode_injective hab, t, huv⟩

/-- The bits of the position or the property. -/
def Component.valueBits : Component → List Bool
  | .integer position => encode position
  | .string property => encode property

theorem componentBits_append (order : ℕ) (c : Component) (u : List Bool) :
    componentBits order c ++ u = encode true ++
      (encode order ++ (encode c.type ++ (c.valueBits ++ u))) := by
  cases c <;> simp [componentBits, Component.type, Component.valueBits]

theorem componentBits_append_isPrefix {order order' : ℕ} {c c' : Component} {u v : List Bool}
    (h : componentBits order c ++ u <+: componentBits order' c' ++ v) : order = order' ∧ c = c' ∧
      u <+: v := by
  rw [componentBits_append, componentBits_append] at h
  obtain ⟨-, h⟩ := encode_append_isPrefix h
  obtain ⟨horder, h⟩ := encode_append_isPrefix h
  obtain ⟨htype, h⟩ := encode_append_isPrefix h
  refine ⟨horder, ?_⟩
  match c, c', htype with
  | .integer _, .integer _, _ =>
    obtain ⟨rfl, huv⟩ := encode_append_isPrefix h
    exact ⟨rfl, huv⟩
  | .string _, .string _, _ =>
    obtain ⟨rfl, huv⟩ := encode_append_isPrefix h
    exact ⟨rfl, huv⟩

/-- A one, that there is a component, and a zero, that there is none, differ. -/
theorem not_true_isPrefix_false {u v : List Bool} : ¬ encode true ++ u <+: encode false ++ v :=
  fun h => by
  cases (encode_append_isPrefix h).1

theorem not_false_isPrefix_true {u v : List Bool} : ¬ encode false ++ u <+: encode true ++ v :=
  fun h => by
  cases (encode_append_isPrefix h).1

theorem componentsBits_isPrefix {v : List Bool} : ∀ {cs ds : List (ℕ × Component)},
    componentsBits cs <+: componentsBits ds ++ (encode false ++ v) ↔ cs <+: ds
  | [], _ => iff_of_true List.nil_prefix List.nil_prefix
  | c :: cs, [] => by
    refine iff_of_false (fun h => ?_) (by simp)
    obtain ⟨w, hw⟩ := componentBits_eq c.1 c.2
    have hbits :
        componentsBits (c :: cs) =
          encode true ++ (encode c.1 ++ true :: w ++ componentsBits cs) := by
      rw [show componentsBits (c :: cs) = componentBits c.1 c.2 ++ componentsBits cs from rfl, hw]
      simp
    rw [hbits] at h
    exact not_true_isPrefix_false h
  | (order, c) :: cs, (order', c') :: ds => by
    have hcs : componentsBits ((order, c) :: cs) = componentBits order c ++ componentsBits cs := rfl
    have hds : componentsBits ((order', c') :: ds) = componentBits order' c' ++ componentsBits ds :=
      rfl
    rw [hcs, hds, List.append_assoc, List.cons_prefix_cons, ← componentsBits_isPrefix (v := v)]
    constructor
    · intro h
      obtain ⟨rfl, rfl, hcs⟩ := componentBits_append_isPrefix h
      exact ⟨rfl, hcs⟩
    · rintro ⟨heq, h⟩
      obtain ⟨rfl, rfl⟩ := Prod.mk.inj heq
      exact (List.prefix_append_right_inj _).mpr h

/-- The bits that the ids at and below a node have in common. -/
def idPrefixBits (components : List (ℕ × Component)) : List Bool :=
  true :: componentsBits components

theorem idBits_eq (cs : List (ℕ × Component)) (i : ℕ) :
    idBits cs i = true :: (componentsBits cs ++ (encode false ++ (encode i ++ [false]))) := by
  simp [idBits, finishKey]

theorem idPrefixBits_isPrefix {cs ds : List (ℕ × Component)} {j : ℕ} :
    idPrefixBits cs <+: idBits ds j ↔ cs <+: ds := by
  rw [idBits_eq, idPrefixBits, List.cons_prefix_cons, componentsBits_isPrefix]
  simp

/-- An id tells its components and its index. -/
theorem idBits_injective {cs ds : List (ℕ × Component)} {i j : ℕ} (h : idBits cs i = idBits ds j) :
    cs = ds ∧ i = j := by
  have h1 : cs <+: ds := idPrefixBits_isPrefix.mp (h ▸ idPrefixBits_isPrefix.mpr List.prefix_rfl)
  have h2 : ds <+: cs :=
    idPrefixBits_isPrefix.mp (h.symm ▸ idPrefixBits_isPrefix.mpr List.prefix_rfl)
  obtain rfl := h1.eq_of_length_le h2.length_le
  rw [idBits_eq, idBits_eq, List.cons_inj_right, List.append_cancel_left_eq,
    List.append_cancel_left_eq] at h
  have hp : encode i ++ [false] <+: encode j ++ [false] := h ▸ List.prefix_rfl
  exact ⟨rfl, (encode_append_isPrefix hp).1⟩

/-! ### Their order -/

/-- What stands between two bit strings with one beginning has it too. -/
theorem isPrefix_of_between : ∀ {p a b c : List Bool}, p <+: a → p <+: c → a < b → b < c → p <+: b
  | [], _, _, _, _, _, _, _ => List.nil_prefix
  | x :: p, _, b, _, ⟨s, rfl⟩, ⟨t, rfl⟩, hab, hbc => by
    cases b with
    | nil => simp at hab
    | cons y b =>
      simp only [List.cons_append, List.cons_lt_cons_iff] at hab hbc
      rcases hab with hlt | ⟨rfl, hab⟩
      · rcases hbc with hlt' | ⟨rfl, -⟩
        · exact absurd hlt' (Bool.lt_asymm hlt)
        · exact absurd hlt (Bool.lt_irrefl _)
      · rcases hbc with hlt | ⟨-, hbc⟩
        · exact absurd hlt (Bool.lt_irrefl x)
        · exact List.cons_prefix_cons.mpr ⟨rfl, isPrefix_of_between ⟨s, rfl⟩ ⟨t, rfl⟩ hab hbc⟩

theorem encode_false : encode false = [true, false] := by simp [encode, write_zero]

theorem encode_true : ∃ w, encode true = true :: true :: w :=
  ⟨_, congrArg (true :: ·) (write_pos Nat.one_ne_zero)⟩

/-- The id of a node stands before those below it. -/
theorem idBits_lt {cs ds : List (ℕ × Component)} (h : cs <+: ds) (hne : cs ≠ ds) (i j : ℕ) :
    idBits cs i < idBits ds j := by
  obtain ⟨t, rfl⟩ := h
  cases t with
  | nil => simp at hne
  | cons c t =>
    obtain ⟨v, hv⟩ := componentBits_eq c.1 c.2
    obtain ⟨w, hw⟩ := encode_true
    have hbits :
        componentsBits (cs ++ c :: t) =
          componentsBits cs ++ (componentBits c.1 c.2 ++ componentsBits t) :=
      componentsBits_append cs (c :: t)
    have hlt := BitTree.lt_of_split (true :: componentsBits cs ++ [true]) (encode i ++ [false])
      (w ++ (encode c.1 ++ true :: v) ++ componentsBits t ++
        (encode false ++ (encode j ++ [false])))
    rw [idBits_eq, idBits_eq, hbits, hv, hw]
    simpa [encode_false] using hlt

/-! ### Reading two ids side by side -/

/-- `Stack::contains` -/
def Stack.contains {α : Type} [Encoded α] (stack : Stack) (value : α) : Bool :=
  (encode value).isPrefixOf stack.rest

/-- The loop of `startsWith`. -/
def startsWithFrom : ℕ → Stack → Stack → Option Bool
  | 0, _, _ => none
  | fuel + 1, parent, child => do
    let (order, parent) ← (decode parent : Option (ℕ × Stack))
    if !child.contains order then return false
    let (_, child) ← (decode child : Option (ℕ × Stack))
    let (type, parent) ← (decode parent : Option (JSONType × Stack))
    if !child.contains type then return false
    let (_, child) ← (decode child : Option (JSONType × Stack))
    let both ←
      if type = .integer then do
        let (index, parent) ← (decode parent : Option (ℕ × Stack))
        if !child.contains index then pure none
        else do
          let (_, child) ← (decode child : Option (ℕ × Stack))
          pure (some (parent, child))
      else do
        let (value, parent) ← (decode parent : Option (BString × Stack))
        if !child.contains value then pure none
        else do
          let (_, child) ← (decode child : Option (BString × Stack))
          pure (some (parent, child))
    match both with
    | none => return false
    | some (parent, child) => do
      let (next, parent) ← (decode parent : Option (Bool × Stack))
      if !next then return true
      if !child.contains next then return false
      let (_, child) ← (decode child : Option (Bool × Stack))
      startsWithFrom fuel parent child

/-- `Iterable::startsWith` -/
def startsWith (parent child : Stack) : Option Bool := do
  let parent := parent.reset
  let child := child.reset
  let (bit, parent) := parent.readBit
  if child.peekBit != bit then return false
  let (_, child) := child.readBit
  let (next, parent) ← (decode parent : Option (Bool × Stack))
  if !child.contains next then return false
  let (_, child) ← (decode child : Option (Bool × Stack))
  if next then startsWithFrom (parent.bits.length + 1) parent child else return true

/-- What `startsWith` finds of the components of two ids. -/
def Begins (cs ds : List (ℕ × Component)) : Prop := if cs = [] then ds = [] else cs <+: ds

instance (cs ds : List (ℕ × Component)) : Decidable (Begins cs ds) := by
  unfold Begins
  infer_instance

theorem Stack.contains_of_rest {α : Type} [Encoded α] {stack : Stack} {v : List Bool}
    (h : stack.rest = v) (a : α) :
    stack.contains a = decide (encode a <+: v) := by
  rw [contains, h, Bool.eq_iff_iff, List.isPrefixOf_iff_prefix, decide_eq_true_eq]

/-- A value is contained exactly if it is the one that is there. -/
theorem Stack.contains_encode {α : Type} [Encoded α] [LawfulEncoded α] [DecidableEq α]
    {stack : Stack} {a b : α} {v : List Bool}
    (h : stack.rest = encode b ++ v) : stack.contains a = decide (a = b) := by
  rw [contains_of_rest h, decide_eq_decide]
  constructor
  · intro hp
    have hp' : encode a ++ [] <+: encode b ++ v := by rwa [List.append_nil]
    exact (encode_append_isPrefix hp').1
  · rintro rfl
    exact List.prefix_append _ _

/-- What follows after the bits that tell whether there is a component. -/
def afterNext (x : List Bool) : List (ℕ × Component) → List Bool
  | [] => x
  | (order, c) :: cs =>
    encode order ++ (encode c.type ++ (c.valueBits ++ (componentsBits cs ++ (encode false ++ x))))

theorem componentsBits_next (cs : List (ℕ × Component)) (x : List Bool) :
    componentsBits cs ++ (encode false ++ x) = encode (!cs.isEmpty) ++ afterNext x cs := by
  cases cs with
  | nil => rfl
  | cons c cs =>
    have hbits : componentsBits (c :: cs) = componentBits c.1 c.2 ++ componentsBits cs := rfl
    rw [hbits, List.append_assoc, componentBits_append]
    rfl

/-- The end of a turn, where both have read their component, if the next turn
`loop` does what it should. -/
theorem startsWith_next {x y : List Bool} {cs ds : List (ℕ × Component)}
    {loop : Stack → Stack → Option Bool} {parent child : Stack}
    (hp : parent.rest = componentsBits cs ++ (encode false ++ x))
    (hd : child.rest = componentsBits ds ++ (encode false ++ y))
    (hloop : ∀ {parent child : Stack}, cs ≠ [] → ds ≠ [] → parent.rest = afterNext x cs →
      child.rest = afterNext y ds →
      loop parent child = some (decide (cs <+: ds))) :
    (do let (next, parent) ← (decode parent : Option (Bool × Stack))
        if !next then return true
        if !child.contains next then return false
        let (_, child) ← (decode child : Option (Bool × Stack))
        loop parent child) = some (decide (cs <+: ds)) := by
  rw [componentsBits_next] at hp hd
  rw [decode_bool _ hp]
  simp only [Option.bind_eq_bind, Option.bind_some, Option.pure_def]
  rw [Stack.contains_encode hd]
  cases cs with
  | nil => simp
  | cons c cs =>
    cases ds with
    | nil => simp
    | cons d ds =>
      simp only [List.isEmpty_cons, Bool.not_false, Bool.not_true, Bool.false_eq_true, if_false,
        decide_true]
      rw [decode_bool _ hd]
      exact hloop (List.cons_ne_nil _ _) (List.cons_ne_nil _ _) (Stack.rest_advance hp)
        (Stack.rest_advance hd)

theorem startsWithFrom_spec {x y : List Bool} :
    ∀ (cs : List (ℕ × Component)) (ds : List (ℕ × Component)) (fuel : ℕ)
    {parent child : Stack}, cs.length < fuel + 1 → cs ≠ [] → ds ≠ [] →
      parent.rest = afterNext x cs →
    child.rest = afterNext y ds → startsWithFrom fuel parent child = some (decide (cs <+: ds))
  | [], _, _, _, _, _, h, _, _, _ => absurd rfl h
  | _ :: _, [], _, _, _, _, _, h, _, _ => absurd rfl h
  | _ :: _, _ :: _, 0, _, _, hf, _, _, _, _ => absurd hf (by simp)
  | (order, c) :: cs, (order', d) :: ds, fuel + 1, parent, child, hf, _, _, hp, hd => by
    have ih : ∀ {parent child : Stack}, cs ≠ [] → ds ≠ [] → parent.rest = afterNext x cs →
      child.rest = afterNext y ds →
        startsWithFrom fuel parent child = some (decide (cs <+: ds)) :=
      startsWithFrom_spec cs ds fuel (by simpa using hf)
    simp only [afterNext] at hp hd
    have hp1 := Stack.rest_advance hp
    have hd1 := Stack.rest_advance hd
    have hp2 := Stack.rest_advance hp1
    have hd2 := Stack.rest_advance hd1
    rw [startsWithFrom, decode_index order hp]
    simp only [Option.bind_eq_bind, Option.bind_some, Option.pure_def]
    rw [Stack.contains_encode hd]
    by_cases horder : order = order'
    · subst horder
      simp only [decide_true, Bool.not_true, Bool.false_eq_true, if_false]
      rw [decode_index order hd]
      simp only [Option.bind_some]
      rw [decode_type c.type hp1]
      simp only [Option.bind_some]
      rw [Stack.contains_encode hd1]
      match c, d with
      | .integer position, .string property => simp [Component.type]
      | .string property, .integer position => simp [Component.type]
      | .integer position, .integer position' =>
        simp only [Component.type, Component.valueBits] at hp2 hd1 hd2
        simp only [Component.type, decide_true, Bool.not_true, Bool.false_eq_true,
          if_false, if_true]
        rw [decode_type .integer hd1]
        simp only [Option.bind_some]
        rw [decode_index position hp2]
        simp only [Option.bind_some]
        rw [Stack.contains_encode (b := position') hd2]
        by_cases hvalue : position = position'
        · subst hvalue
          simp only [decide_true, Bool.not_true, Bool.false_eq_true, if_false]
          rw [decode_index position hd2]
          have hnext := startsWith_next (Stack.rest_advance hp2) (Stack.rest_advance hd2) ih
          simpa using hnext
        · simp [hvalue]
      | .string property, .string property' =>
        simp only [Component.type, Component.valueBits] at hp2 hd1 hd2
        have hvp :
          (decode ((parent.advance (encode order)).advance (encode JSONType.string)) : Option
          (BString × Stack)) = _ :=
          decode_string property hp2
        have hvd :
          (decode ((child.advance (encode order)).advance (encode JSONType.string)) : Option
          (BString × Stack)) = _ :=
          decode_string property' hd2
        simp only [Component.type, decide_true, Bool.not_true, Bool.false_eq_true, if_false,
          reduceCtorEq]
        rw [decode_type .string hd1]
        simp only [Option.bind_some]
        rw [hvp]
        simp only [Option.bind_some]
        rw [Stack.contains_encode (b := property') hd2]
        by_cases hvalue : property = property'
        · subst hvalue
          simp only [decide_true, Bool.not_true, Bool.false_eq_true, if_false]
          rw [hvd]
          have hnext := startsWith_next (Stack.rest_advance hp2) (Stack.rest_advance hd2) ih
          simpa using hnext
        · simp [hvalue]
    · simp [horder]

/-- **`startsWith` reads whether an id begins another.** -/
theorem startsWith_idBits (cs ds : List (ℕ × Component)) (i j : ℕ) :
    startsWith ⟨idBits cs i, 0, 0⟩ ⟨idBits ds j, 0, 0⟩ = some (decide (Begins cs ds)) := by
  obtain ⟨hp, hp1⟩ := readBit_idBits cs i
  obtain ⟨hd, hd1⟩ := readBit_idBits ds j
  have hpeek : (⟨idBits ds j, 0, 0⟩ : Stack).peekBit = true := congrArg Prod.fst hd
  rw [componentsBits_next] at hp1 hd1
  have hreset : ∀ bits : List Bool, (⟨bits, 0, 0⟩ : Stack).reset = ⟨bits, 0, 0⟩ := fun _ => rfl
  unfold startsWith Begins
  simp only [hreset, hp, hd, hpeek, bne_self_eq_false, Bool.false_eq_true, if_false]
  rw [decode_bool _ hp1]
  simp only [Option.bind_eq_bind, Option.bind_some, Option.pure_def]
  rw [Stack.contains_encode hd1, decode_bool _ hd1]
  cases cs with
  | nil => cases ds <;> simp
  | cons c cs =>
    cases ds with
    | nil => simp
    | cons d ds =>
      simp only [List.isEmpty_cons, Bool.not_false, decide_true, Bool.not_true, Bool.false_eq_true,
        if_false, Option.bind_some,
        if_true, reduceCtorEq]
      refine startsWithFrom_spec (c :: cs) (d :: ds) _ ?_ (List.cons_ne_nil _ _)
        (List.cons_ne_nil _ _)
        (Stack.rest_advance hp1) (Stack.rest_advance hd1)
      exact Nat.lt_succ_of_lt (length_idBits (c :: cs) i)

end BeeFish
