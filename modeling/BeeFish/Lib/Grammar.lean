/-
# Reading an expression with one character to look at

An expression of characters, words, sequences, alternatives, options and
repetitions denotes a language. It is deterministic when the next character
always tells whether a word of it goes on, whether there is another item and
which alternative it is. Then a text has at most one longest part that is a word
(`Done`), or one that can become a word and does not (`Dead`), and so has every
part that an expression is put together from: a reader that takes characters as
long as they can come next tells of the whole what it tells of the parts
(`Done.tells`, `Tells.opt`, `Tells.item_next`, `Tells.add`), and accepts the words
of the language (`Tells.mem_iff`).

A reader that does not go back gives up where a part fails, and so it must not
leave out an option or an item that has begun. `Expr.Clear` says of a text that
nothing in it asks for that, and that no item and no alternative is taken to be
over before the next character has told so.

Key definitions: `Expr`, `Expr.lang`, `Expr.Deterministic`, `Expr.Orderly`,
`Expr.Clear`, `Out`, `Tells`.
-/
import Mathlib.Computability.Language
import Mathlib.Tactic.Common

namespace Grammar

variable {α β : Type}

/-- An expression over characters `α` with sets of characters `β`. -/
inductive Expr (α β : Type) where
  | one (set : β)
  | word (w : List α)
  | seq (es : List (Expr α β))
  | alt (es : List (Expr α β))
  | opt (e : Expr α β)
  | rep (e : Expr α β) (minimum maximum : ℕ)

/-! ### Languages -/

/-- From `minimum` to `maximum` words, of which there have been `count`; no
`maximum` is zero. -/
def repeated (L : Language α) (minimum maximum count : ℕ) : Language α :=
  {w | ∃ n, minimum ≤ count + n ∧ (maximum = 0 ∨ count + n ≤ maximum) ∧ w ∈ L ^ n}

/-- A word of the first language that can go on does not do so with a character
that a word of the second one starts with. -/
def Apart (A B : Language α) : Prop := ∀ u c v x, u ∈ A → u ++ c :: v ∈ A → c :: x ∈ B → False

/-- No word of the one starts as one of the other does. -/
def Unlike (A B : Language α) : Prop := ∀ c u v, c :: u ∈ A → c :: v ∈ B → False

/-- There are words that go on from here. -/
def GoesOn (L : Language α) (u : List α) : Prop := ∃ c v, u ++ c :: v ∈ L

/-- The text starts with a word that does not go on. -/
structure Done (L : Language α) (w u rest : List α) : Prop where
  eq : w = u ++ rest
  mem : u ∈ L
  ends : ∀ c x, rest = c :: x → ∀ v, u ++ c :: v ∉ L

/-- The text starts with what can become a word, which is none and does not go
on. -/
structure Dead (L : Language α) (w u rest : List α) : Prop where
  eq : w = u ++ rest
  viable : ∃ t, u ++ t ∈ L
  notMem : u ∉ L
  ends : ∀ c x, rest = c :: x → ∀ v, u ++ c :: v ∉ L

/-- The text begins a word and does not finish it. -/
def Unfinished (L : Language α) (w : List α) : Prop := ∃ u rest, Dead L w u rest ∧ u ≠ []

/-- A number of words, each of which does not go on, and what comes after them. -/
inductive Items (L : Language α) : ℕ → List α → List α → Prop
  | none (w : List α) : Items L 0 w w
  | next {n : ℕ} {w v u rest : List α} : Items L n w v → Done L v u rest → Items L (n + 1) w rest

namespace Expr

section

variable (holds : β → α → Bool)

mutual

def lang : Expr α β → Language α
  | one set => {w | ∃ c, holds set c ∧ w = [c]}
  | word w => {w}
  | seq es => seqLang es
  | alt es => altLang es
  | opt e => 1 + lang e
  | rep e minimum maximum => repeated (lang e) minimum maximum 0

def seqLang : List (Expr α β) → Language α
  | [] => 1
  | e :: es => lang e * seqLang es

def altLang : List (Expr α β) → Language α
  | [] => 0
  | e :: es => lang e + altLang es

end

mutual

/-- The next character determines what can come. Where an item can be empty nothing
tells how many there are, so that there is one at most. -/
def Deterministic : Expr α β → Prop
  | one _ => True
  | word _ => True
  | seq es => DeterministicSeq es
  | alt es => DeterministicAll es ∧ es.Pairwise fun e f => Unlike (lang holds e) (lang holds f)
  | opt e => Deterministic e
  | rep e _ maximum =>
    Deterministic e ∧ (maximum ≠ 1 → [] ∉ lang holds e ∧ Apart (lang holds e) (lang holds e))

def DeterministicSeq : List (Expr α β) → Prop
  | [] => True
  | e :: es => Deterministic e ∧ Apart (lang holds e) (seqLang holds es) ∧ DeterministicSeq es

def DeterministicAll : List (Expr α β) → Prop
  | [] => True
  | e :: es => Deterministic e ∧ DeterministicAll es

end

mutual

/-- Sets, words, sequences and alternatives are not empty, and the bounds can be
met. -/
def Orderly : Expr α β → Prop
  | one set => ∃ c, holds set c
  | word w => w ≠ []
  | seq es => es ≠ [] ∧ OrderlyAll es
  | alt es => es ≠ [] ∧ OrderlyAll es
  | opt e => Orderly e
  | rep e minimum maximum => Orderly e ∧ (maximum = 0 ∨ minimum ≤ maximum)

def OrderlyAll : List (Expr α β) → Prop
  | [] => True
  | e :: es => Orderly e ∧ OrderlyAll es

end

/-- The alternative that the first character starts comes before those that may be
empty, and is over with this character if there are any. -/
def Preferred (es : List (Expr α β)) (w : List α) : Prop :=
  ∀ before e after c x, es = before ++ e :: after → w = c :: x → (∃ v, c :: v ∈ lang holds e) →
    (∀ f ∈ before, [] ∉ lang holds f) ∧
      (∀ f ∈ after, [] ∈ lang holds f → ¬GoesOn (lang holds e) [c])

mutual

/-- What is asked of a text, and of what is left of it for every part that begins
there. No option, and no item that may be left out, begins and is not finished.
An alternative that may be empty does not come before the one that the character
starts. Only in a sequence, which gives a character to the next part (`again`), is
there an item that the next character ends; at the end of the text there is no item
that has to come and may be empty. -/
def Clear : Expr α β → Bool → List α → Prop
  | one _, _, _ => True
  | word _, _, _ => True
  | seq es, _, w => ClearSeq es w
  | alt es, _, w => ClearAll es w ∧ Preferred holds es w
  | opt e, again, w => Clear e again w ∧ ¬Unfinished (lang holds e) w
  | rep e minimum maximum, again, w =>
    (w = [] → minimum ≠ 0 → [] ∉ lang holds e) ∧
      ∀ n v, Items (lang holds e) n w v → maximum = 0 ∨ n < maximum →
        Clear e again v ∧ (minimum ≤ n → ¬Unfinished (lang holds e) v) ∧
          (again = false → n + 1 ≠ maximum →
            ∀ u rest, Done (lang holds e) v u rest → GoesOn (lang holds e) u → rest = [])

def ClearSeq : List (Expr α β) → List α → Prop
  | [], _ => True
  | e :: es, w => Clear e true w ∧ ∀ u rest, Done (lang holds e) w u rest → ClearSeq es rest

def ClearAll : List (Expr α β) → List α → Prop
  | [], _ => True
  | e :: es, w => Clear e false w ∧ ClearAll es w

end

end

end Expr

/-! ### What a reader tells -/

/-- What a reader comes to: it has done, maybe told by the next character
(`late`), or fails, with what is left of the text, or the text is over before,
with what it says then. -/
inductive Out (α : Type) where
  | done (late : Bool) (rest : List α)
  | fail (rest : List α)
  | stop (ok : Bool)
  deriving DecidableEq, Repr

namespace Out

/-- The whole text is accepted. -/
def accepts : Out α → Bool
  | done _ rest => rest.isEmpty
  | fail _ => false
  | stop ok => ok

/-- What is said when the part may be left out. -/
def optional : Out α → Out α
  | done late rest => done late rest
  | fail rest => done true rest
  | stop _ => stop true

end Out

/-- What the reader comes to is right about the text. -/
def Tells (L : Language α) (w : List α) : Out α → Prop
  | .done late rest => ∃ u, Done L w u rest ∧ (late = true → rest ≠ [] ∧ GoesOn L u)
  | .fail rest => rest ≠ [] ∧ ∃ u, Dead L w u rest
  | .stop ok => GoesOn L w ∧ (ok = true ↔ w ∈ L)

variable {A B L : Language α} {w u u' v rest rest' : List α} {late ok : Bool} {out : Out α}

theorem Done.not_mem {c : α} {x : List α} (h : Done L w u (c :: x)) : w ∉ L := by
  obtain ⟨rfl, -, hends⟩ := h
  exact hends c x rfl x

theorem Dead.not_mem (h : Dead L w u rest) : w ∉ L := by
  obtain ⟨rfl, -, hu, hends⟩ := h
  cases rest with
  | nil => rwa [List.append_nil]
  | cons c x => exact hends c x rfl x

/-- **A text is a word exactly when it is accepted.** -/
theorem Tells.mem_iff (h : Tells L w out) : w ∈ L ↔ out.accepts = true := by
  cases out with
  | done late rest =>
    obtain ⟨u, hdone, -⟩ := h
    cases rest with
    | nil =>
      obtain rfl : w = u := by simpa using hdone.eq
      exact iff_of_true hdone.mem rfl
    | cons c x => exact iff_of_false hdone.not_mem nofun
  | fail rest =>
    obtain ⟨-, u, hdead⟩ := h
    exact iff_of_false hdead.not_mem nofun
  | stop ok => exact h.2.symm

/-- Where a word of the text does not go on nothing else has been begun. -/
theorem Done.not_unfinished (h : Done L w u rest) : ¬Unfinished L w := by
  rintro ⟨u', rest', ⟨heq, ⟨t, ht⟩, hnot, hends⟩, -⟩
  rw [h.eq] at heq
  rcases List.append_eq_append_iff.mp heq with ⟨y, rfl, hrest⟩ | ⟨y, rfl, hrest⟩
  · cases y with
    | nil => exact hnot (by simpa using h.mem)
    | cons c y => exact h.ends c (y ++ rest') hrest (y ++ t) (by simpa using ht)
  · cases y with
    | nil => exact hnot (by simpa using h.mem)
    | cons c y => exact hends c (y ++ rest) hrest y h.mem

theorem GoesOn.mono (h : GoesOn A u) (hL : ∀ v, v ∈ A → v ∈ L) : GoesOn L u := by
  obtain ⟨c, v, hv⟩ := h
  exact ⟨c, v, hL _ hv⟩

/-- What can become a word and is none goes on. -/
theorem Dead.goesOn (h : Dead L w u rest) : GoesOn L u := by
  obtain ⟨-, ⟨t, ht⟩, hnot, -⟩ := h
  cases t with
  | nil => exact absurd (by simpa using ht) hnot
  | cons c t => exact ⟨c, t, ht⟩

/-- A text that could go on and is over. -/
theorem dead_of_stop (h : Tells L w (.stop false)) : Dead L w w [] := by
  obtain ⟨⟨c, v, hv⟩, hok⟩ := h
  exact ⟨(List.append_nil w).symm, ⟨c :: v, hv⟩, mt hok.mpr nofun, nofun⟩

theorem done_of_stop (h : Tells L w (.stop true)) : Done L w w [] :=
  ⟨(List.append_nil w).symm, h.2.mp rfl, nofun⟩

/-! ### Sequences -/

/-- A text that starts with what can become a word of the first language is not
split inside it. -/
theorem Apart.isPrefix (h : Apart A B) {a b s : List α} (ha : a ∈ A) (hb : b ∈ B)
    (hu : ∃ t, u ++ t ∈ A)
    (heq : a ++ b = u ++ s) : u <+: a := by
  rcases List.prefix_or_prefix_of_prefix (⟨b, heq⟩ : a <+: u ++ s) (List.prefix_append u s) with ⟨y,
    rfl⟩ | hpre
  · cases y with
    | nil => simp
    | cons c y =>
      obtain ⟨t, ht⟩ := hu
      have hbeq : b = c :: (y ++ s) := by simpa using heq
      exact (h a c (y ++ t) (y ++ s) ha (by simpa using ht) (hbeq ▸ hb)).elim
  · exact hpre

/-- A word that does not go on is the first part of every split. -/
theorem Done.split (h : Done A w u rest) (hA : Apart A B) {a b s : List α} (ha : a ∈ A) (hb : b ∈ B)
    (heq : a ++ b = u ++ s)
    (hs : ∀ d y, s = d :: y → ∃ x, rest = d :: x) : b = s := by
  obtain ⟨y, rfl⟩ := hA.isPrefix ha hb ⟨[], by simpa using h.mem⟩ heq
  rw [List.append_assoc, List.append_cancel_left_eq] at heq
  cases y with
  | nil => exact heq
  | cons d y =>
    obtain ⟨x, hx⟩ := hs d (y ++ b) heq.symm
    exact (h.ends d x hx y ha).elim

theorem Done.mul (h : Done A w u rest) (hA : Apart A B) (h' : Done B rest u' rest') :
    Done (A * B) w (u ++ u') rest' where
  eq := by rw [h.eq, h'.eq, List.append_assoc]
  mem := Language.append_mem_mul h.mem h'.mem
  ends c x hx v hmem := by
    obtain ⟨a, ha, b, hb, heq⟩ := Language.mem_mul.mp hmem
    rw [List.append_assoc] at heq
    have hb' := h.split hA ha hb heq fun d y hd => by
      rw [h'.eq, hx]
      cases u' with
      | nil => exact ⟨x, by simpa using (List.cons.inj hd).1⟩
      | cons e u' => exact ⟨u' ++ c :: x, by simpa using (List.cons.inj hd).1⟩
    exact h'.ends c x hx v (hb' ▸ hb)

theorem Done.mul_dead (h : Done A w u rest) (hA : Apart A B) (h' : Dead B rest u' rest') :
    Dead (A * B) w (u ++ u') rest' where
  eq := by rw [h.eq, h'.eq, List.append_assoc]
  viable := by
    obtain ⟨t, ht⟩ := h'.viable
    exact ⟨t, by rw [List.append_assoc]; exact Language.append_mem_mul h.mem ht⟩
  notMem hmem := by
    obtain ⟨a, ha, b, hb, heq⟩ := Language.mem_mul.mp hmem
    have hb' := h.split hA ha hb heq fun d y hd => by
      rw [h'.eq, hd]
      exact ⟨y ++ rest', rfl⟩
    exact h'.notMem (hb' ▸ hb)
  ends c x hx v hmem := by
    obtain ⟨a, ha, b, hb, heq⟩ := Language.mem_mul.mp hmem
    rw [List.append_assoc] at heq
    have hb' := h.split hA ha hb heq fun d y hd => by
      rw [h'.eq, hx]
      cases u' with
      | nil => exact ⟨x, by simpa using (List.cons.inj hd).1⟩
      | cons e u' => exact ⟨u' ++ c :: x, by simpa using (List.cons.inj hd).1⟩
    exact h'.ends c x hx v (hb' ▸ hb)

theorem Dead.mul (h : Dead A w u rest) (hA : Apart A B) (hB : ∃ b, b ∈ B) :
    Dead (A * B) w u rest where
  eq := h.eq
  viable := by
    obtain ⟨t, ht⟩ := h.viable
    obtain ⟨b, hb⟩ := hB
    exact ⟨t ++ b, by rw [← List.append_assoc]; exact Language.append_mem_mul ht hb⟩
  notMem hmem := by
    obtain ⟨a, ha, b, hb, heq⟩ := Language.mem_mul.mp hmem
    obtain ⟨y, rfl⟩ := hA.isPrefix (s := []) ha hb h.viable (by simpa using heq)
    have hy : y = [] ∧ b = [] := by simpa using heq
    exact h.notMem (by simpa [hy.1] using ha)
  ends c x hx v hmem := by
    obtain ⟨a, ha, b, hb, heq⟩ := Language.mem_mul.mp hmem
    obtain ⟨y, rfl⟩ := hA.isPrefix ha hb h.viable heq
    rw [List.append_assoc, List.append_cancel_left_eq] at heq
    cases y with
    | nil => exact h.notMem (by simpa using ha)
    | cons d y => exact h.ends c x hx y (by rwa [(List.cons.inj heq).1] at ha)

theorem GoesOn.mul_right (h : GoesOn A u) (hB : ∃ b, b ∈ B) : GoesOn (A * B) u := by
  obtain ⟨c, v, hv⟩ := h
  obtain ⟨b, hb⟩ := hB
  exact ⟨c, v ++ b, by simpa using Language.append_mem_mul hv hb⟩

theorem GoesOn.mul_left (h : GoesOn B u) (hv : v ∈ A) : GoesOn (A * B) (v ++ u) := by
  obtain ⟨c, x, hx⟩ := h
  exact ⟨c, x, by simpa using Language.append_mem_mul hv hx⟩

/-- What comes after a word that does not go on is told as it is. -/
theorem Done.tells (h : Done A w u rest) (hA : Apart A B) (hr : Tells B rest out) :
    Tells (A * B) w out := by
  cases out with
  | done late rest' =>
    obtain ⟨u', hdone, hlate⟩ := hr
    exact ⟨u ++ u', h.mul hA hdone, fun hl => (hlate hl).imp_right fun hon => hon.mul_left h.mem⟩
  | fail rest' =>
    obtain ⟨hrest, u', hdead⟩ := hr
    exact ⟨hrest, u ++ u', h.mul_dead hA hdead⟩
  | stop ok =>
    obtain ⟨hon, hok⟩ := hr
    have hw := h.eq
    refine ⟨hw ▸ hon.mul_left h.mem,
      hok.trans ⟨fun hrest => hw ▸ Language.append_mem_mul h.mem hrest, ?_⟩⟩
    intro hmem
    obtain ⟨a, ha, b, hb, heq⟩ := Language.mem_mul.mp hmem
    exact h.split hA ha hb (heq.trans hw) (fun d y hd => ⟨y, hd⟩) ▸ hb

/-- Where the first part fails so does the sequence. -/
theorem tells_mul_fail (h : Tells A w (.fail rest)) (hA : Apart A B) (hB : ∃ b, b ∈ B) :
    Tells (A * B) w (.fail rest) := by
  obtain ⟨hrest, u, hdead⟩ := h
  exact ⟨hrest, u, hdead.mul hA hB⟩

/-- Where the text is over in the first part the others are asked if they may be
empty. -/
theorem tells_mul_stop {ok' : Bool} (h : Tells A w (.stop ok)) (hA : Apart A B) (hB : ∃ b, b ∈ B)
    (hok' : ok = true → (ok' = true ↔ [] ∈ B)) : Tells (A * B) w (.stop (ok && ok')) := by
  obtain ⟨hon, hok⟩ := h
  refine ⟨hon.mul_right hB, ?_⟩
  rw [Bool.and_eq_true]
  constructor
  · rintro ⟨rfl, rfl⟩
    simpa using Language.append_mem_mul (hok.mp rfl) ((hok' rfl).mp rfl)
  · intro hmem
    obtain ⟨a, ha, b, hb, heq⟩ := Language.mem_mul.mp hmem
    obtain ⟨c, v, hv⟩ := hon
    obtain ⟨y, rfl⟩ := hA.isPrefix (s := []) ha hb ⟨c :: v, hv⟩ (by simpa using heq)
    obtain ⟨rfl, rfl⟩ : y = [] ∧ b = [] := by simpa using heq
    have hw : ok = true := hok.mpr (by simpa using ha)
    exact ⟨hw, (hok' hw).mpr hb⟩

/-! ### Alternatives -/

section

variable {c : α} {x : List α}

theorem Done.ne_nil (h : Done A (c :: x) u rest) (hc : ∃ v, c :: v ∈ A) : u ≠ [] := by
  rintro rfl
  obtain ⟨v, hv⟩ := hc
  exact h.ends c x h.eq.symm v hv

theorem Dead.ne_nil (h : Dead A (c :: x) u rest) (hc : ∃ v, c :: v ∈ A) : u ≠ [] := by
  rintro rfl
  obtain ⟨v, hv⟩ := hc
  exact h.ends c x h.eq.symm v hv

theorem Done.add (h : Done A w u rest) (hA : Unlike A B) (hu : u ≠ [])
    (hL : ∀ v, v ∈ L ↔ v ∈ A ∨ v ∈ B) :
    Done L w u rest where
  eq := h.eq
  mem := (hL u).mpr (Or.inl h.mem)
  ends c x hx v hmem := by
    obtain ⟨d, u, rfl⟩ := List.exists_cons_of_ne_nil hu
    exact ((hL _).mp hmem).elim (h.ends c x hx v) (hA d u (u ++ c :: v) h.mem)

theorem Dead.add (h : Dead A w u rest) (hA : Unlike A B) (hu : u ≠ [])
    (hL : ∀ v, v ∈ L ↔ v ∈ A ∨ v ∈ B) :
    Dead L w u rest := by
  obtain ⟨heq, ⟨t, ht⟩, hnot, hends⟩ := h
  obtain ⟨d, u, rfl⟩ := List.exists_cons_of_ne_nil hu
  refine ⟨heq, ⟨t, (hL _).mpr (Or.inl ht)⟩, fun hmem => ?_, fun c x hx v hmem => ?_⟩
  · exact ((hL _).mp hmem).elim hnot (hA d (u ++ t) u ht)
  · exact ((hL _).mp hmem).elim (hends c x hx v) (hA d (u ++ t) (u ++ c :: v) ht)

/-- A reading of what the character starts tells of all alternatives. -/
theorem Tells.add (h : Tells A (c :: x) out) (hc : ∃ v, c :: v ∈ A) (hA : Unlike A B)
    (hL : ∀ v, v ∈ L ↔ v ∈ A ∨ v ∈ B) : Tells L (c :: x) out := by
  have hmono : ∀ v, v ∈ A → v ∈ L := fun v hv => (hL v).mpr (Or.inl hv)
  cases out with
  | done late rest =>
    obtain ⟨u, hdone, hlate⟩ := h
    exact ⟨u, hdone.add hA (hdone.ne_nil hc) hL, fun hl => (hlate hl).imp_right fun hon =>
      hon.mono hmono⟩
  | fail rest =>
    obtain ⟨hrest, u, hdead⟩ := h
    exact ⟨hrest, u, hdead.add hA (hdead.ne_nil hc) hL⟩
  | stop ok =>
    obtain ⟨hon, hok⟩ := h
    refine ⟨hon.mono hmono,
      hok.trans ⟨hmono _, fun hmem => ((hL _).mp hmem).resolve_right fun hx => ?_⟩⟩
    obtain ⟨v, hv⟩ := hc
    exact hA c v x hv hx

/-- Of a character that starts no word a reader tells that nothing is there. -/
theorem Tells.unbegun (h : Tells L (c :: x) out) (hc : ∀ v, c :: v ∉ L) :
    (out = .fail (c :: x) ∧ [] ∉ L) ∨ ∃ late, out = .done late (c :: x) ∧ [] ∈ L := by
  have hnil : ∀ {u rest t : List α}, c :: x = u ++ rest → u ++ t ∈ L → u = [] := by
    intro u rest t heq ht
    cases u with
    | nil => rfl
    | cons d u =>
      obtain rfl : c = d := (List.cons.inj heq).1
      exact absurd ht (hc (u ++ t))
  cases out with
  | done late rest =>
    obtain ⟨u, hdone, -⟩ := h
    obtain rfl := hnil (t := []) hdone.eq (by simpa using hdone.mem)
    exact Or.inr ⟨late, by rw [hdone.eq, List.nil_append], hdone.mem⟩
  | fail rest =>
    obtain ⟨-, u, hdead⟩ := h
    obtain ⟨t, ht⟩ := hdead.viable
    obtain rfl := hnil hdead.eq ht
    exact Or.inl ⟨by rw [hdead.eq, List.nil_append], hdead.notMem⟩
  | stop ok =>
    obtain ⟨⟨d, v, hv⟩, -⟩ := h
    exact absurd hv (hc (x ++ d :: v))

/-- Of a character that is a word and does not go on a reader tells that it is
there. -/
theorem Tells.single (h : Tells L (c :: x) out) (hc : ∃ v, c :: v ∈ L) (hon : ¬GoesOn L [c]) :
    out = .done false x := by
  have hsingle : ∀ {u rest : List α}, c :: x = u ++ rest → u ≠ [] → u = [c] ∨ ∃ d y,
    u = c :: d :: y := by
    intro u rest heq hu
    obtain ⟨d, u, rfl⟩ := List.exists_cons_of_ne_nil hu
    obtain rfl : c = d := (List.cons.inj heq).1
    cases u with
    | nil => exact Or.inl rfl
    | cons d y => exact Or.inr ⟨d, y, rfl⟩
  cases out with
  | done late rest =>
    obtain ⟨u, hdone, hlate⟩ := h
    rcases hsingle hdone.eq (hdone.ne_nil hc) with rfl | ⟨d, y, rfl⟩
    · cases late with
      | true => exact absurd (hlate rfl).2 hon
      | false => rw [show x = rest from (List.cons.inj hdone.eq).2]
    · exact absurd ⟨d, y, hdone.mem⟩ hon
  | fail rest =>
    obtain ⟨-, u, hdead⟩ := h
    rcases hsingle hdead.eq (hdead.ne_nil hc) with rfl | ⟨d, y, rfl⟩
    · exact absurd hdead.goesOn hon
    · obtain ⟨t, ht⟩ := hdead.viable
      exact absurd ⟨d, y ++ t, ht⟩ hon
  | stop ok =>
    obtain ⟨⟨d, v, hv⟩, -⟩ := h
    cases x with
    | nil => exact absurd ⟨d, v, hv⟩ hon
    | cons e x => exact absurd ⟨e, x ++ d :: v, hv⟩ hon

end

/-! ### Options -/

theorem mem_one_add {v : List α} : v ∈ 1 + A ↔ v = [] ∨ v ∈ A := by
  rw [Language.mem_add, Language.mem_one]

/-- Where a part fails at once it is left out. -/
theorem Dead.tells_opt (h : Dead A w [] rest) (hrest : rest ≠ []) :
    Tells (1 + A) w (.done true rest) := by
  refine ⟨[], ⟨h.eq, mem_one_add.mpr (Or.inl rfl), fun c x hx v hmem => ?_⟩, fun _ => ⟨hrest, ?_⟩⟩
  · exact (mem_one_add.mp hmem).elim (by simp) (h.ends c x hx v)
  · exact h.goesOn.mono fun v hv => mem_one_add.mpr (Or.inr hv)

theorem Done.opt (h : Done A w u rest) : Done (1 + A) w u rest where
  eq := h.eq
  mem := mem_one_add.mpr (Or.inr h.mem)
  ends c x hx v hmem := (mem_one_add.mp hmem).elim (by simp) (h.ends c x hx v)

theorem Dead.eq_nil (h : Dead A w u rest) (hw : ¬Unfinished A w) : u = [] := by
  by_contra hu
  exact hw ⟨u, rest, h, hu⟩

theorem Tells.opt (h : Tells A w out) (hw : ¬Unfinished A w) : Tells (1 + A) w out.optional := by
  have hmono : ∀ v, v ∈ A → v ∈ 1 + A := fun v hv => mem_one_add.mpr (Or.inr hv)
  cases out with
  | done late rest =>
    obtain ⟨u, hdone, hlate⟩ := h
    exact ⟨u, hdone.opt, fun hl => (hlate hl).imp_right fun hon => hon.mono hmono⟩
  | fail rest =>
    obtain ⟨hrest, u, hdead⟩ := h
    obtain rfl := hdead.eq_nil hw
    exact hdead.tells_opt hrest
  | stop ok =>
    refine ⟨h.1.mono hmono, iff_of_true rfl ?_⟩
    cases ok with
    | true => exact hmono w (h.2.mp rfl)
    | false => exact mem_one_add.mpr (Or.inl ((dead_of_stop h).eq_nil hw))

/-! ### Repetitions -/

variable {minimum maximum count : ℕ}

theorem mem_repeated : w ∈ repeated A minimum maximum count ↔
    (minimum ≤ count ∧ (maximum = 0 ∨ count ≤ maximum) ∧ w = []) ∨
      w ∈ A * repeated A minimum maximum (count + 1) := by
  constructor
  · rintro ⟨n, hmin, hmax, hw⟩
    cases n with
    | zero => exact Or.inl ⟨hmin, hmax, by rwa [pow_zero, Language.mem_one] at hw⟩
    | succ n =>
      rw [pow_succ'] at hw
      obtain ⟨a, ha, b, hb, rfl⟩ := Language.mem_mul.mp hw
      exact Or.inr (Language.append_mem_mul ha ⟨n, by omega, by omega, hb⟩)
  · rintro (⟨hmin, hmax, rfl⟩ | hw)
    · exact ⟨0, hmin, hmax, by rw [pow_zero, Language.mem_one]⟩
    · obtain ⟨a, ha, b, ⟨n, hmin, hmax, hb⟩, rfl⟩ := Language.mem_mul.mp hw
      exact ⟨n + 1, by omega, by omega, by rw [pow_succ']; exact Language.append_mem_mul ha hb⟩

theorem repeated_eq (hmax : maximum = 0 ∨ count ≤ maximum) : repeated A minimum maximum count =
    if minimum ≤ count then 1 + A * repeated A minimum maximum (count + 1)
    else A * repeated A minimum maximum (count + 1) := by
  ext v
  rw [mem_repeated]
  split_ifs with hmin
  · rw [mem_one_add]
    simp [hmin, hmax]
  · simp [hmin]

theorem exists_repeated (hA : ∃ a, a ∈ A)
    (hmax : maximum = 0 ∨ (minimum ≤ maximum ∧ count ≤ maximum)) :
    ∃ b, b ∈ repeated A minimum maximum count := by
  have hpow : ∀ n, ∃ b, b ∈ A ^ n := by
    intro n
    induction n with
    | zero => exact ⟨[], by rw [pow_zero, Language.mem_one]⟩
    | succ n ih =>
      obtain ⟨a, ha⟩ := hA
      obtain ⟨b, hb⟩ := ih
      exact ⟨a ++ b, by rw [pow_succ']; exact Language.append_mem_mul ha hb⟩
  rcases hmax with h0 | ⟨hle, hcount⟩
  · obtain ⟨b, hb⟩ := hpow minimum
    exact ⟨b, minimum, by omega, Or.inl h0, hb⟩
  · obtain ⟨b, hb⟩ := hpow (maximum - count)
    exact ⟨b, maximum - count, by omega, by omega, hb⟩

section

variable (hA : maximum ≠ 1 → [] ∉ A ∧ Apart A A) (hne : ∃ a, a ∈ A)
  (hbounds : maximum = 0 ∨ minimum ≤ maximum) (hcount : maximum = 0 ∨ count < maximum)

include hA

/-- What comes after an item is another one. -/
theorem apart_repeated : Apart A (repeated A minimum maximum (count + 1)) := by
  rintro u c v x hu huv ⟨n, -, hmax, hx⟩
  cases n with
  | zero =>
    rw [pow_zero, Language.mem_one] at hx
    exact absurd hx (List.cons_ne_nil c x)
  | succ n =>
    obtain ⟨hnil, hapart⟩ := hA (by omega)
    rw [pow_succ'] at hx
    obtain ⟨a, ha, b, -, heq⟩ := Language.mem_mul.mp hx
    cases a with
    | nil => exact hnil ha
    | cons d a => exact hapart u c v a hu huv ((List.cons.inj heq).1 ▸ ha)

include hcount

theorem nil_mem_repeated : [] ∈ repeated A minimum maximum (count + 1) ↔ minimum ≤ count + 1 := by
  rw [mem_repeated]
  constructor
  · rintro (⟨hmin, -⟩ | hmul)
    · exact hmin
    · obtain ⟨a, ha, b, ⟨n, -, hmax, -⟩, heq⟩ := Language.mem_mul.mp hmul
      exact absurd ((List.append_eq_nil_iff.mp heq).1 ▸ ha) (hA (by omega)).1
  · exact fun hmin => Or.inl ⟨hmin, by omega, rfl⟩

include hne hbounds

omit hA in
theorem GoesOn.item (h : GoesOn A u) : GoesOn (repeated A minimum maximum count) u := by
  have hB : ∃ b, b ∈ repeated A minimum maximum (count + 1) := exists_repeated hne (by omega)
  exact (h.mul_right hB).mono fun v hv => mem_repeated.mpr (Or.inr hv)

/-- After the last item nothing goes on. -/
theorem Tells.item_last (h : Tells A w (.done late rest)) (hlast : count + 1 = maximum) :
    Tells (repeated A minimum maximum count) w (.done late rest) := by
  obtain ⟨u, hdone, hlate⟩ := h
  refine ⟨u, ?_, fun hl => (hlate hl).imp_right fun hon => hon.item hne hbounds hcount⟩
  have hend : Done (repeated A minimum maximum (count + 1)) rest [] rest := by
    refine ⟨rfl, mem_repeated.mpr (Or.inl ⟨by omega, by omega, rfl⟩), fun c x _ v hmem => ?_⟩
    rcases mem_repeated.mp hmem with ⟨-, -, hnil⟩ | hmul
    · exact absurd hnil (List.cons_ne_nil c v)
    · obtain ⟨a, -, b, ⟨n, -, hn, -⟩, -⟩ := Language.mem_mul.mp hmul
      omega
  have hmul := hdone.mul (apart_repeated hA) hend
  rw [List.append_nil] at hmul
  rw [repeated_eq (by omega)]
  split_ifs
  · exact hmul.opt
  · exact hmul

omit hbounds in
/-- What comes after an item, of a repetition that may be over. -/
theorem Done.item_next (h : Done A w u rest) (hu : u ≠ [])
    (hr : Tells (repeated A minimum maximum (count + 1)) rest out) :
    Tells (repeated A minimum maximum count) w out := by
  have hmul := h.tells (apart_repeated hA) hr
  rw [repeated_eq (by omega)]
  split_ifs
  · -- the text has begun an item
    obtain ⟨c, u, rfl⟩ := List.exists_cons_of_ne_nil hu
    obtain ⟨b, hb⟩ : ∃ b, b ∈ repeated A minimum maximum (count + 1) :=
      exists_repeated hne (by omega)
    rw [h.eq, List.cons_append] at hmul ⊢
    refine hmul.add ⟨u ++ b, Language.append_mem_mul h.mem hb⟩ (B := 1) (fun d x y _ hy => ?_)
      fun v => ?_
    · exact List.cons_ne_nil d y hy
    · rw [mem_one_add, Language.mem_one, or_comm]
  · exact hmul

theorem Tells.item_fail (h : Tells A w (.fail rest)) (hw : minimum ≤ count → ¬Unfinished A w) :
    Tells (repeated A minimum maximum count) w (if minimum ≤ count then .done true rest
      else .fail rest) := by
  have hB : ∃ b, b ∈ repeated A minimum maximum (count + 1) := exists_repeated hne (by omega)
  rw [repeated_eq (by omega)]
  split_ifs with hmin
  · obtain ⟨hrest, u, hdead⟩ := h
    obtain rfl := hdead.eq_nil (hw hmin)
    exact (hdead.mul (apart_repeated hA) hB).tells_opt hrest
  · exact tells_mul_fail h (apart_repeated hA) hB

/-- The text is over: the item counts if it is one. -/
theorem Tells.item_stop (h : Tells A w (.stop ok)) (hw : minimum ≤ count → ¬Unfinished A w) :
    Tells (repeated A minimum maximum count) w
      (.stop (decide (minimum ≤ if ok then count + 1 else count))) := by
  have hB : ∃ b, b ∈ repeated A minimum maximum (count + 1) := exists_repeated hne (by omega)
  obtain ⟨-, hmul⟩ : Tells (A * repeated A minimum maximum (count + 1)) w
      (.stop (ok && decide (minimum ≤ count + 1))) :=
        tells_mul_stop h (apart_repeated hA) hB fun _ => by
    rw [nil_mem_repeated hA hcount, decide_eq_true_iff]
  refine ⟨h.1.item hne hbounds hcount, ?_⟩
  rw [decide_eq_true_iff, mem_repeated, ← hmul]
  cases ok with
  | true =>
    simp only [if_true, Bool.true_and, decide_eq_true_eq]
    omega
  | false =>
    simp only [Bool.false_eq_true, if_false, Bool.false_and, or_false]
    refine ⟨fun hmin => ⟨hmin, by omega, (dead_of_stop h).eq_nil (hw hmin)⟩, fun h => h.1⟩

end

/-! ### Characters and words -/

section

variable {c : α} {x letters : List α}

/-- A character that starts no word fails, or is not looked at. -/
theorem tells_refused (hc : ∀ v, c :: v ∉ L) (hnil : [] ∉ L) (hL : ∃ v, v ∈ L) :
    Tells L (c :: x) (.fail (c :: x)) :=
  ⟨List.cons_ne_nil c x, [], rfl, hL, hnil, fun _ _ hd v => (List.cons.inj hd).1 ▸ hc v⟩

theorem tells_passed (hc : ∀ v, c :: v ∉ L) (hnil : [] ∈ L) (hL : GoesOn L []) :
    Tells L (c :: x) (.done true (c :: x)) :=
  ⟨[], ⟨rfl, hnil, fun _ _ hd v => (List.cons.inj hd).1 ▸ hc v⟩, fun _ =>
    ⟨List.cons_ne_nil c x, hL⟩⟩

theorem tells_taken (hc : [c] ∈ L) (hend : ∀ v, c :: v ∈ L → v = []) :
    Tells L (c :: x) (.done false x) :=
  ⟨[c], ⟨rfl, hc, fun d _ _ v hmem => List.cons_ne_nil d v (hend (d :: v) hmem)⟩, nofun⟩

theorem tells_waits (hnil : [] ∉ L) (hL : ∃ v, v ∈ L) : Tells L [] (.stop false) := by
  obtain ⟨v, hv⟩ := hL
  cases v with
  | nil => exact absurd hv hnil
  | cons c v => exact ⟨⟨c, v, hv⟩, iff_of_false nofun hnil⟩

/-- After its first letter a word is told as what is left of it. -/
theorem tells_cons (h : Tells ({letters} : Language α) x out) : Tells ({c :: letters} : Language α)
    (c :: x) out := by
  have hmul : ({c :: letters} : Language α) = {[c]} * {letters} := by
    ext v
    simp only [Language.mem_mul]
    constructor
    · rintro rfl
      exact ⟨[c], rfl, letters, rfl, rfl⟩
    · rintro ⟨a, rfl, b, rfl, rfl⟩
      rfl
  have hone : ∀ v : List α, v ∈ ({[c]} : Language α) ↔ v = [c] := fun v => Iff.rfl
  have hdone : Done ({[c]} : Language α) (c :: x) [c] x := by
    refine ⟨rfl, rfl, fun d y _ v hmem => ?_⟩
    simpa using (hone _).mp hmem
  have hapart : Apart ({[c]} : Language α) {letters} := by
    intro u d v y hu huv _
    rw [hone] at hu huv
    simp [hu] at huv
  rw [hmul]
  exact hdone.tells hapart h

end

/-! ### Expressions -/

namespace Expr

variable {holds : β → α → Bool}

theorem mem_altLang : ∀ {es : List (Expr α β)} {w : List α}, w ∈ altLang holds es ↔ ∃ e ∈ es,
    w ∈ lang holds e
  | [], w => by
    rw [altLang]
    exact ⟨fun h => absurd h (Language.notMem_zero w), nofun⟩
  | e :: es, w => by
    rw [altLang, Language.mem_add, mem_altLang]
    simp

theorem clear_of_mem : ∀ {es : List (Expr α β)} {w : List α}, ClearAll holds es w → ∀ e ∈ es,
    e.Clear holds false w
  | [], _, _ => nofun
  | _ :: _, _, ⟨he, hes⟩ => List.forall_mem_cons.mpr ⟨he, clear_of_mem hes⟩

mutual

theorem exists_lang : ∀ (e : Expr α β), e.Orderly holds → ∃ w, w ∈ lang holds e
  | one _, h => h.imp' (fun c => [c]) fun c hc => ⟨c, hc, rfl⟩
  | word w, _ => ⟨w, rfl⟩
  | seq es, h => exists_seqLang es h.2
  | alt es, ⟨hne, h⟩ => exists_altLang es hne h
  | opt _, _ => ⟨[], mem_one_add.mpr (Or.inl rfl)⟩
  | rep e _ _, ⟨h, hbounds⟩ =>
    exists_repeated (exists_lang e h) (hbounds.imp id fun hle => ⟨hle, Nat.zero_le _⟩)

theorem exists_seqLang : ∀ (es : List (Expr α β)), OrderlyAll holds es → ∃ w, w ∈ seqLang holds es
  | [], _ => ⟨[], rfl⟩
  | e :: es, ⟨he, hes⟩ => by
    obtain ⟨a, ha⟩ := exists_lang e he
    obtain ⟨b, hb⟩ := exists_seqLang es hes
    exact ⟨a ++ b, Language.append_mem_mul ha hb⟩

theorem exists_altLang : ∀ (es : List (Expr α β)), es ≠ [] → OrderlyAll holds es →
    ∃ w, w ∈ altLang holds es
  | [], hne, _ => absurd rfl hne
  | e :: _, _, ⟨he, _⟩ => (exists_lang e he).imp fun _ hw => Or.inl hw

end

end Expr

end Grammar
