/-
# The copy of a URL

A `URL` is copied by reading what it prints. What is printed is not always read
as it was: without an origin the protocol is not printed, and the path follows
the domain at once, so where it starts with something else than a slash it is
read as more of the domain or as a port. A copy is the same as the URL in every
other case, and in none of these (`copy_exact`).

Key definitions: `URLParts.copy`, `URLParts.SameAs`, `URLParts.Copyable`.
-/
import Mathlib.Data.List.TakeWhile
import BeeFish.DomainName

namespace BeeFish

open BString URLGrammar

/-! ### The copy -/

namespace URLParts

/-- `URL::URL` of another one -/
def copy (lower : BString → BString) (fuel : ℕ) (source : URLParts) : Run URLException URLParts :=
  parse lower fuel source.toString

/-- The text and the parts are the same. -/
structure SameAs (copy url : URLParts) : Prop where
  toString : copy.toString = url.toString
  protocol : copy.protocolValue = url.protocolValue
  domain : copy.domainValue = url.domainValue
  port : copy.portValue = url.portValue
  path : copy.pathValue = url.pathValue
  search : copy.search = url.search
  items : copy.items = url.items

/-- There is a mark after the domain, or there is no domain and no protocol but
the one of a URL without any. -/
def Copyable (url : URLParts) : Prop :=
  if url.origin then url.portValue ≠ [] ∨ url.path.length ≤ 1 ∨ url.path.head? = some 47
  else url.protocolValue = text "https"

variable {copy url : URLParts}

/-- A path that is printed is printed again. -/
theorem pathValue_again (h : copy.path = url.pathValue) : copy.pathValue = url.pathValue := by
  rw [pathValue, h]
  unfold pathValue
  split_ifs <;> rfl

/-- The parts that are read again, the path as it was printed. -/
theorem sameAs_of (horigin : copy.origin = url.origin) (hdomain : copy.domain = url.domain)
    (hprotocol : copy.protocolValue = url.protocolValue) (hport : copy.portValue = url.portValue)
    (hpath : copy.path = url.pathValue)
    (hsearch : copy.search = url.search) (hitems : copy.items = url.items) : copy.SameAs url := by
  have hvalue := congrArg (Option.getD · []) hdomain
  refine ⟨?_, hprotocol, hvalue, hport, pathValue_again hpath, hsearch, hitems⟩
  unfold toString originValue domainValue
  rw [horigin, hdomain, hprotocol, hport, pathValue_again hpath, hsearch]

theorem portValue_congr (hport : copy.port = url.port)
    (hprotocol : copy.protocolValue = url.protocolValue) :
    copy.portValue = url.portValue := by
  unfold portValue
  rw [hport, hprotocol]

theorem length_pathValue_le (url : URLParts) : url.pathValue.length ≤ max url.path.length 1 := by
  unfold pathValue
  split_ifs
  · exact le_max_left _ _
  · exact le_max_right _ _

/-- The port that is printed is the one that has matched. -/
theorem port_of_portValue (h : url.portValue ≠ []) : url.port = some url.portValue := by
  unfold portValue at h ⊢
  cases hport : url.port with
  | none => simp [hport] at h
  | some port =>
    simp only [hport] at h ⊢
    split_ifs at h ⊢ <;> first | rfl | exact absurd rfl h

end URLParts

namespace URLText

open URLParts

variable {lower : BString → BString} {w ds P S : List BString} {protocol : Option BString}

/-! ### A search -/

/-- What is skipped. -/
theorem skip_append (k : BString) (w : List BString) : ∃ e, w = e ++ skip k w ∧
    (e = [k] ∨ e = [] ∧ w.head? ≠ some k) := by
  unfold skip
  by_cases h : w.head? = some k
  · exact ⟨[k], by rw [if_pos h]; exact head?_eq_some h, Or.inl rfl⟩
  · exact ⟨[], by rw [if_neg h]; rfl, Or.inr ⟨rfl, h⟩⟩

/-- The mark that a search ends before. -/
def Blank (w : List BString) : Prop := ∀ c ∈ w.head?, c = text " "

theorem Blank.stopsAt_key (h : Blank w) : StopsAt (others keyCharacters) w := by
  intro c hc
  rw [h c hc]
  decide

theorem Blank.stopsAt_value (h : Blank w) : StopsAt (others valueCharacters) w := by
  intro c hc
  rw [h c hc]
  decide

theorem Blank.skip (h : Blank w) : skip (text "&") w = w := by
  refine if_neg fun hhead => ?_
  exact absurd (h _ hhead) (by decide)

theorem takeWhile_of_stopsAt {p : BString → Bool} (h : StopsAt p w) : w.takeWhile p = [] :=
  (URL.takeWhile_stop (List.forall_mem_nil _) h).1

/-- A key, a value and the marks, up to what follows. -/
structure IsPair (K e V a rest : List BString) : Prop where
  key_ne : K ≠ []
  key : ∀ c ∈ K, others keyCharacters c = true
  value : ∀ c ∈ V, others valueCharacters c = true
  equals : e = [text "="] ∨ e = [] ∧ V = []
  mark : a = [text "&"] ∨ a = [] ∧ Blank rest

variable {K e V a rest : List BString}

/-- A pair is read with whatever follows it. -/
theorem IsPair.keyValues (h : IsPair K e V a rest) : keyValues (K ++ (e ++ (V ++ (a ++ rest)))) =
    ((K.flatten, V.flatten) :: (keyValues rest).1, (keyValues rest).2) := by
  have hmark : StopsAt (others valueCharacters) (a ++ rest) ∧
    skip (text "&") (a ++ rest) = rest := by
    rcases h.mark with rfl | ⟨rfl, hblank⟩
    · exact ⟨fun c hc => by rw [← Option.some.inj hc]; decide, if_pos rfl⟩
    · exact ⟨hblank.stopsAt_value, hblank.skip⟩
  have hequals : StopsAt (others keyCharacters) (e ++ (V ++ (a ++ rest))) ∧
    skip (text "=") (e ++ (V ++ (a ++ rest))) = V ++ (a ++ rest) := by
    rcases h.equals with rfl | ⟨rfl, rfl⟩
    · exact ⟨fun c hc => by rw [← Option.some.inj hc]; decide, if_pos rfl⟩
    · rcases h.mark with rfl | ⟨rfl, hblank⟩
      · exact ⟨fun c hc => by rw [← Option.some.inj hc]; decide, if_neg fun hhead =>
          absurd (Option.some.inj hhead) (by decide)⟩
      · refine ⟨hblank.stopsAt_key, if_neg fun hhead => ?_⟩
        exact absurd (hblank _ hhead) (by decide)
  obtain ⟨htake, hdrop⟩ := URL.takeWhile_stop h.key hequals.1
  obtain ⟨htake', hdrop'⟩ := URL.takeWhile_stop h.value hmark.1
  rw [keyValues_cons (by rw [htake]; exact h.key_ne), afterPair, valueOf, htake, hdrop, hequals.2,
    htake', hdrop', hmark.2]

/-- What a class stops at is one of the other characters. -/
theorem mem_of_dropWhile {characters : List BString} {c : BString}
    (h : (w.dropWhile (others characters)).head? = some c) : c ∈ characters := by
  have hnot := List.head?_dropWhile_not (others characters) w
  rw [h] at hnot
  simpa [others] using hnot

/-- A text that starts with a key starts with a pair. -/
theorem isPair_of_key (h : w.takeWhile (others keyCharacters) ≠ []) :
    ∃ K e V a, w = K ++ (e ++ (V ++ (a ++ afterPair w))) ∧ IsPair K e V a (afterPair w) := by
  obtain ⟨e, he, hequals⟩ := skip_append (text "=") (w.dropWhile (others keyCharacters))
  obtain ⟨a, ha, hmark⟩ := skip_append (text "&")
    ((skip (text "=") (w.dropWhile (others keyCharacters))).dropWhile (others valueCharacters))
  refine ⟨w.takeWhile (others keyCharacters), e,
    (skip (text "=") (w.dropWhile (others keyCharacters))).takeWhile (others valueCharacters), a,
      ?_,
    h, fun _ => List.mem_takeWhile_imp, fun _ => List.mem_takeWhile_imp, ?_, ?_⟩
  · unfold afterPair
    rw [← ha, List.takeWhile_append_dropWhile, ← he, List.takeWhile_append_dropWhile]
  · apply hequals.imp_right
    -- without the mark a space or the next pair follows, which no value starts with
    rintro ⟨hnil, hhead⟩
    refine ⟨hnil, takeWhile_of_stopsAt fun c hc => ?_⟩
    rw [skip, if_neg hhead] at hc
    have hmem := mem_of_dropWhile hc
    rw [others, Bool.not_eq_false', decide_eq_true_eq]
    rcases List.mem_cons.mp hmem with rfl | hmem
    · exact absurd hc hhead
    · exact hmem
  · apply hmark.imp_right
    rintro ⟨hnil, hhead⟩
    refine ⟨hnil, fun c hc => ?_⟩
    rw [afterPair, skip, if_neg hhead] at hc
    rcases List.mem_cons.mp (mem_of_dropWhile hc) with rfl | hmem
    · exact absurd hc hhead
    · exact List.mem_singleton.mp hmem

/-- The pairs of a search are read again from the text up to where they end. -/
theorem keyValues_again (w : List BString) : ∃ q, w = q ++ (keyValues w).2 ∧
    keyValues q = ((keyValues w).1, []) := by
  by_cases h : w.takeWhile (others keyCharacters) = []
  · rw [keyValues_none h]
    exact ⟨[], rfl, keyValues_none rfl⟩
  · obtain ⟨K, e, V, a, hw, hpair⟩ := isPair_of_key h
    have hlt := length_afterPair_lt h
    obtain ⟨q, hq, hagain⟩ := keyValues_again (afterPair w)
    have hread := hpair.keyValues
    rw [← hw] at hread
    have hpair' : IsPair K e V a q := by
      refine ⟨hpair.key_ne, hpair.key, hpair.value, hpair.equals, ?_⟩
      apply hpair.mark.imp_right
      rintro ⟨hnil, hblank⟩
      refine ⟨hnil, ?_⟩
      have hend : keyValues (afterPair w) = ([], afterPair w) :=
        keyValues_none (takeWhile_of_stopsAt hblank.stopsAt_key)
      rw [hend] at hq
      rw [List.self_eq_append_left.mp hq]
      exact nofun
    refine ⟨K ++ (e ++ (V ++ (a ++ q))), ?_, ?_⟩
    · rw [hread]
      simp only [List.append_assoc]
      rw [← hq]
      exact hw
    · rw [hpair'.keyValues, hagain, hread]
termination_by w.length

/-- What a search prints is read again. -/
theorem searchOf_again (w : List BString) : ∃ S, S <+: w ∧ S.flatten = (searchOf w).1 ∧
    searchOf S = searchOf w ∧
    StopsAt (others pathCharacters) S := by
  unfold searchOf
  by_cases h : w.head? = some (text "?")
  · obtain ⟨q, hq, hagain⟩ := keyValues_again w.tail
    have hbefore := Match.textBefore_append (keyValues w.tail).2 q
    have hend := Match.textBefore_append [] q
    rw [← hq] at hbefore
    rw [List.append_nil] at hend
    refine ⟨text "?" :: q, ⟨(keyValues w.tail).2, ?_⟩, ?_, ?_, fun c hc => ?_⟩
    · rw [List.cons_append, ← hq]
      exact (head?_eq_some h).symm
    · rw [if_pos h, hbefore]
      rfl
    · rw [if_pos h, if_pos (show (text "?" :: q).head? = some (text "?") from rfl), List.tail_cons,
        hagain, hbefore, hend]
    · rw [← Option.some.inj hc]
      decide
  · rw [if_neg h]
    exact ⟨[], List.nil_prefix, rfl, rfl, nofun⟩

/-! ### The printed parts -/

/-- The characters of a path as it is printed. -/
def printedPath (w : List BString) : List BString :=
  if 1 < (w.takeWhile (others pathCharacters)).flatten.length then
    w.takeWhile (others pathCharacters)
  else [text "/"]

theorem flatten_printedPath {url : URLParts}
    (h : url.path = (w.takeWhile (others pathCharacters)).flatten) :
    (printedPath w).flatten = url.pathValue := by
  unfold printedPath URLParts.pathValue
  rw [h]
  split_ifs <;> rfl

theorem mem_printedPath {c : BString} (h : c ∈ printedPath w) : (c ∈ w ∨ c = text "/") ∧
    others pathCharacters c = true := by
  unfold printedPath at h
  split_ifs at h
  · exact ⟨Or.inl ((List.takeWhile_sublist _).subset h), List.mem_takeWhile_imp h⟩
  · rw [List.mem_singleton.mp h]
    exact ⟨Or.inr rfl, by decide⟩

theorem printedPath_ne_nil (w : List BString) : printedPath w ≠ [] := by
  unfold printedPath
  split_ifs with h
  · intro hnil
    rw [hnil] at h
    exact absurd h (by decide)
  · exact List.cons_ne_nil _ _

theorem length_printedPath (h : (printedPath w).head? ≠ some (text "/")) :
    1 < (printedPath w).flatten.length := by
  unfold printedPath at h ⊢
  split_ifs at h ⊢ with hlen
  · exact hlen
  · exact absurd rfl h

/-- A class that stops before the rest of a text, and before a slash, stops before the path. -/
theorem stopsAt_printedPath {p : BString → Bool} (h : StopsAt p w) (hslash : p (text "/") = false)
    (S : List BString) :
    StopsAt p (printedPath w ++ S) := by
  intro c hc
  rw [List.head?_append_of_ne_nil _ (printedPath_ne_nil w)] at hc
  unfold printedPath at hc
  split_ifs at hc
  · cases w with
    | nil => cases hc
    | cons d w =>
      rw [List.takeWhile_cons] at hc
      split_ifs at hc
      · exact h c hc
      · cases hc
  · rw [← Option.some.inj hc]
    exact hslash

/-! ### What is printed, read again -/

section

variable (hP : ∀ c ∈ P, others pathCharacters c = true) (hS : StopsAt (others pathCharacters) S)

include hP hS

theorem read_again {w₁ : List BString} {protocol domain port : Option BString}
    (hscheme : scheme lower w = (protocol, w₁))
    (hdomain : domainOf w₁ = (domain, port, P ++ S)) :
    read lower w = ⟨domain.isSome, protocol, domain, port, P.flatten, (searchOf S).1,
      itemsOf (searchOf S).2⟩ := by
  obtain ⟨htake, hdrop⟩ := URL.takeWhile_stop hP hS
  have hread := read_eq hscheme hdomain (Prod.eta _).symm
  rwa [htake, hdrop] at hread

end

theorem domainValue_read (w : List BString) :
    (read lower w).domainValue =
      ((scheme lower w).2.takeWhile (others domainCharacters)).flatten := by
  have hdomain : (read lower w).domainValue = (domainOf (scheme lower w).2).1.getD [] := rfl
  rw [hdomain, domainOf]
  split_ifs with h
  · rw [h]
    rfl
  · rfl

theorem path_read (w : List BString) :
    (read lower w).path =
      ((domainOf (scheme lower w).2).2.2.takeWhile (others pathCharacters)).flatten :=
  rfl

/-- A path that does not start with a slash is not read as it is after a domain. -/
theorem read_glued (hP : ∀ c ∈ P, others pathCharacters c = true)
    (hS : StopsAt (others pathCharacters) S)
    (hscheme : scheme lower w = (protocol, ds ++ (P ++ S))) (hne : ds ≠ [])
    (hds : ∀ c ∈ ds, others domainCharacters c = true)
    (hPne : P ≠ []) (hwhole : ∀ c ∈ P, c ≠ []) (hslash : P.head? ≠ some (text "/")) :
    (read lower w).domainValue ≠ ds.flatten ∨ (read lower w).path.length < P.flatten.length := by
  obtain ⟨c, P, rfl⟩ := List.exists_cons_of_ne_nil hPne
  obtain ⟨hc, hrest⟩ := List.forall_mem_cons.mp hP
  have hpos := List.length_pos_iff.mpr (hwhole c List.mem_cons_self)
  by_cases hcolon : c = text ":"
  · -- what follows is read as a port
    subst hcolon
    have hstop : StopsAt (others domainCharacters) (text ":" :: P ++ S) := fun c hc => by
      rw [← Option.some.inj hc]
      decide
    have hdigit : StopsAt digit S := by
      intro c hc
      have hmem := hS c hc
      rw [others, Bool.not_eq_false', decide_eq_true_eq] at hmem
      exact (by decide : ∀ c ∈ pathCharacters, digit c = false) c hmem
    have hdrop : (P ++ S).dropWhile digit = P.dropWhile digit ++ S := by
      rw [List.dropWhile_append]
      split_ifs with hempty
      · rw [List.isEmpty_iff.mp hempty]
        exact dropWhile_of_takeWhile_nil (takeWhile_of_stopsAt hdigit)
      · rfl
    have hport : (portOf (text ":" :: P ++ S)).2 = P.dropWhile digit ++ S := by
      rw [portOf, if_pos (show (text ":" :: P ++ S).head? = some (text ":") from rfl),
        List.cons_append, List.tail_cons, hdrop]
    refine Or.inr ?_
    rw [path_read, hscheme, domainOf_some hne hds hstop, hport,
      (URL.takeWhile_stop (fun d hd => hrest d ((List.dropWhile_sublist _).subset hd)) hS).1,
        List.flatten_cons, List.length_append]
    have hle := (List.dropWhile_suffix (l := P) digit).flatten.length_le
    omega
  · refine Or.inl ?_
    have hother : others domainCharacters c = true := by
      have hsplit : ∀ d ∈ domainCharacters, d ∈ pathCharacters ∨ d = text "/" ∨ d = text ":" := by
        decide
      rw [others, Bool.not_eq_true', decide_eq_false_iff_not] at hc ⊢
      intro hmem
      rcases hsplit c hmem with h | rfl | h
      · exact hc h
      · exact hslash rfl
      · exact hcolon h
    rw [domainValue_read, hscheme, List.takeWhile_append_of_pos hds, List.cons_append,
      List.takeWhile_cons_of_pos hother,
      List.flatten_append, List.flatten_cons]
    intro heq
    have hlen := congrArg List.length heq
    simp only [List.length_append] at hlen
    omega

/-- A character, with the first byte of one that is more than ASCII. -/
def IsCharacter (c : BString) : Prop := Parser.IsWhole c ∧ ∃ b t, c = b :: t ∧ (t = [] ∨ 128 ≤ b)

theorem isCharacter_ascii {b : UInt8} (h : b < 128) : IsCharacter [b] :=
  ⟨Parser.isWhole_ascii h, b, [], rfl, Or.inl rfl⟩

theorem isCharacter_singles {s : BString} (h : ∀ b ∈ s, b < 128) : ∀ c ∈ singles s,
    IsCharacter c := by
  intro c hc
  obtain ⟨b, hb, rfl⟩ := List.mem_map.mp hc
  exact isCharacter_ascii (h b hb)

theorem isCharacter_slash : IsCharacter (text "/") := by
  rw [show text "/" = [47] by decide]
  exact isCharacter_ascii (by decide)

theorem IsCharacter.eq_slash {c : BString} (h : IsCharacter c) : c = text "/" ↔
    c.head? = some 47 := by
  obtain ⟨-, b, t, rfl, ht⟩ := h
  rw [show text "/" = [47] by decide, List.head?_cons, Option.some.injEq, List.cons.injEq]
  refine ⟨And.left, fun hb => ⟨hb, ht.resolve_right ?_⟩⟩
  rw [hb]
  decide

/-- The path that is printed starts with a slash. -/
theorem printedPath_slash (hw : ∀ c ∈ w, IsCharacter c) : (printedPath w).head? = some (text "/") ↔
    (w.takeWhile (others pathCharacters)).flatten.length ≤ 1 ∨
      (w.takeWhile (others pathCharacters)).flatten.head? = some 47 := by
  unfold printedPath
  split_ifs with hlen
  · rw [or_iff_right (Nat.not_le.mpr hlen)]
    cases htake : w.takeWhile (others pathCharacters) with
    | nil => simp
    | cons c P =>
      have hc := hw c ((List.takeWhile_sublist _).subset (htake ▸ List.mem_cons_self))
      obtain ⟨-, b, t, rfl, -⟩ := id hc
      rw [List.head?_cons, Option.some.injEq, hc.eq_slash]
      rfl
  · exact iff_of_true rfl (Or.inl (Nat.not_lt.mp hlen))

theorem lower_domainCharacters (hl : Lowers lower) {c : BString} (h : c ∈ domainCharacters) :
    lower c ≠ [104] := by
  have hall : ∀ c ∈ domainCharacters, (c.all fun b => decide (b < 128)) = true ∧
    c.map lowerByte ≠ [104] := by decide
  rw [hl.ascii c (forall_of_all (hall c h).1)]
  exact (hall c h).2

/-- The characters of a protocol, of one that has matched or of the default. -/
theorem protocol_again (hl : Lowers lower) (hw : ∀ c ∈ w, IsCharacter c) :
    ∃ cs, (Agrees lower cs (text "http") ∨ Agrees lower cs (text "https")) ∧
    cs.flatten = (scheme lower w).1.getD (text "https") ∧ ∀ c ∈ cs, IsCharacter c := by
  unfold scheme
  simp only
  by_cases hn : 4 ≤ Match.common lower (text "https") w
  · have hagrees : Agrees lower _ _ := agrees_common (text "https") w
    have hlen : Match.common lower (text "https") w = 4 ∨ Match.common lower (text "https")
      w = 5 := by
      have hle := Match.common_le lower (text "https") w
      have hlength := hagrees.length_eq
      rw [List.length_take_of_le hle, List.length_take,
        show (text "https").length = 5 by decide] at hlength
      omega
    rw [if_pos hn]
    refine ⟨_, ?_, rfl, fun c hc => hw c (List.mem_of_mem_take hc)⟩
    rcases hlen with h | h <;> rw [h] at hagrees ⊢
    · exact Or.inl hagrees
    · exact Or.inr hagrees
  · rw [if_neg hn]
    exact ⟨singles (text "https"), Or.inr (agrees_singles hl (forall_of_all (by decide))),
      flatten_singles _,
      isCharacter_singles (forall_of_all (by decide))⟩

variable {w₁ w₂ : List BString} {domain port : Option BString}

/-- What a URL prints after its origin. -/
theorem printed_characters (hw : ∀ c ∈ w, IsCharacter c)
    (hS : S <+: w.dropWhile (others pathCharacters)) :
    ∀ c ∈ printedPath w ++ S, IsCharacter c := by
  intro c hc
  rcases List.mem_append.mp hc with hc | hc
  · rcases (mem_printedPath hc).1 with h | rfl
    · exact hw c h
    · exact isCharacter_slash
  · exact hw c ((List.dropWhile_sublist _).subset (hS.subset hc))

/-- A URL without a domain prints its path and its search. -/
theorem sameAs_none (hl : Lowers lower) (hw : ∀ c ∈ w₁, IsCharacter c)
    (hscheme : scheme lower w = (protocol, w₁))
    (hstop : StopsAt (others domainCharacters) w₁) :
    (read lower (Parser.characters (read lower w).toString)).SameAs (read lower w) ↔
      (read lower w).Copyable := by
  obtain ⟨S, hSw, hflat, hsearch, hS⟩ := searchOf_again (w₁.dropWhile (others pathCharacters))
  have hread := read_eq hscheme (domainOf_none hstop) (Prod.eta _).symm
  generalize read lower w = url at hread ⊢
  have hpath : (printedPath w₁).flatten = url.pathValue := flatten_printedPath (by rw [hread])
  have htext : url.toString = (printedPath w₁ ++ S).flatten := by
    rw [List.flatten_append, hpath, hflat]
    simp [URLParts.toString, URLParts.originValue, hread]
  have hhead := stopsAt_printedPath hstop (by decide) S
  have hagain : read lower (Parser.characters url.toString) =
    ⟨false, none, none, none, url.pathValue, url.search, url.items⟩ := by
    have hscheme' : scheme lower (printedPath w₁ ++ S) = (none, printedPath w₁ ++ S) := by
      refine scheme_none fun c hc => lower_domainCharacters hl ?_
      simpa [others] using hhead c hc
    rw [htext, Parser.characters_of_whole fun c hc => (printed_characters hw hSw c hc).1,
      read_again (fun c hc => (mem_printedPath hc).2) hS hscheme' (domainOf_none hhead), hpath,
        hsearch, hread]
    simp only [Option.isSome_none]
  rw [hagain]
  unfold URLParts.Copyable
  rw [if_neg (by simp [hread])]
  constructor
  · exact fun h => h.protocol.symm
  · intro hprotocol
    exact URLParts.sameAs_of (by rw [hread]; rfl) (by rw [hread]) hprotocol.symm
      (by rw [hread]; rfl) rfl rfl rfl

/-! ### A URL with a domain -/

/-- The characters of the parts, as they are printed after one another. -/
structure Prints (lower : BString → BString) (url : URLParts) (cs ds P S : List BString) :
    Prop where
  agrees : Agrees lower cs (text "http") ∨ Agrees lower cs (text "https")
  protocol : cs.flatten = url.protocolValue
  origin : url.origin = true
  domain : url.domain = some ds.flatten
  domain_ne : ds ≠ []
  domain_others : ∀ c ∈ ds, others domainCharacters c = true
  path : P.flatten = url.pathValue
  path_ne : P ≠ []
  path_others : ∀ c ∈ P, others pathCharacters c = true
  stops : StopsAt (others pathCharacters) S
  search : S.flatten = url.search
  search_again : (searchOf S).1 = url.search
  items : itemsOf (searchOf S).2 = url.items
  characters : ∀ c, c ∈ cs ∨ c ∈ ds ∨ c ∈ P ∨ c ∈ S → IsCharacter c

variable {url : URLParts} {cs X : List BString}

/-- A text with a domain is printed as its parts. -/
theorem prints_read (hl : Lowers lower) (hw : ∀ c ∈ w, IsCharacter c)
    (hscheme : scheme lower w = (protocol, w₁))
    (hne : ds ≠ []) (hds : ∀ c ∈ ds, others domainCharacters c = true) (hdsw : ds ⊆ w)
    (hdomain : domainOf w₁ = (some ds.flatten, port, w₂))
    (hw₂ : w₂ ⊆ w) : ∃ cs S, Prints lower (read lower w) cs ds (printedPath w₂) S := by
  obtain ⟨S, hSw, hflat, hsearch, hS⟩ := searchOf_again (w₂.dropWhile (others pathCharacters))
  obtain ⟨cs, hagrees, hprotocol, hcs⟩ := protocol_again hl hw
  have hend := printed_characters (fun c hc => hw c (hw₂ hc)) hSw
  rw [hscheme] at hprotocol
  rw [read_eq hscheme hdomain (Prod.eta _).symm]
  refine ⟨cs, S, hagrees, hprotocol, rfl, rfl, hne, hds, flatten_printedPath rfl,
    printedPath_ne_nil w₂, fun c hc => (mem_printedPath hc).2, hS,
    hflat, by rw [hsearch], by rw [hsearch], fun c hc => ?_⟩
  rcases hc with hc | hc | hc
  · exact hcs c hc
  · exact hw c (hdsw hc)
  · exact hend c (List.mem_append.mpr hc)

/-- What is printed, with the characters of a port. -/
theorem Prints.toString (h : Prints lower url cs ds P S)
    (hX : X.flatten = if url.portValue = [] then [] else text ":" ++ url.portValue)
    (hwhole : ∀ c ∈ X, Parser.IsWhole c) :
    Parser.characters url.toString = cs ++ (singles (text "://") ++ (ds ++ (X ++ (P ++ S)))) := by
  have htext :
    url.toString = (cs ++ (singles (text "://") ++ (ds ++ (X ++ (P ++ S))))).flatten := by
    simp only [List.flatten_append, flatten_singles, hX, h.protocol, h.path, h.search]
    unfold URLParts.toString URLParts.originValue URLParts.domainValue
    rw [h.origin, h.domain]
    by_cases hport : url.portValue = []
    · simp [hport]
    · simp [hport, List.length_pos_iff]
  rw [htext]
  refine Parser.characters_of_whole fun c hc => ?_
  simp only [List.mem_append] at hc
  rcases hc with hc | hc | hc | hc | hc
  · exact (h.characters c (Or.inl hc)).1
  · exact (isCharacter_singles (forall_of_all (by decide)) c hc).1
  · exact (h.characters c (Or.inr (Or.inl hc))).1
  · exact hwhole c hc
  · exact (h.characters c (Or.inr (Or.inr hc))).1

theorem Prints.scheme (h : Prints lower url cs ds P S) (hl : Lowers lower) (w : List BString) :
    scheme lower (cs ++ (singles (text "://") ++ w)) = (some cs.flatten, w) := by
  have hcolon : lower [58] = [58] := hl.ascii [58] (forall_of_all (by decide))
  rcases h.agrees with hcs | hcs
  · exact scheme_marks (Or.inl rfl) hcs hcolon w
  · exact scheme_marks (Or.inr rfl) hcs hcolon w

/-- The parts that are read again are the same, where the port is. -/
theorem Prints.sameAs (h : Prints lower url cs ds P S)
    (hdomain : domainOf w₁ = (some ds.flatten, port, P ++ S))
    (hscheme : URLText.scheme lower w = (some cs.flatten, w₁))
    (hport : ∀ copy : URLParts, copy.port = port → copy.protocolValue = url.protocolValue →
      copy.portValue = url.portValue) :
    (read lower w).SameAs url := by
  rw [read_again h.path_others h.stops hscheme hdomain]
  exact URLParts.sameAs_of (by rw [h.origin]; rfl) h.domain.symm h.protocol (hport _ rfl h.protocol)
    h.path h.search_again h.items

/-- A port ends the domain. -/
theorem Prints.sameAs_port (h : Prints lower url cs ds P S) (hl : Lowers lower)
    (hprints : url.portValue ≠ []) {ps : List BString}
    (hps : ∀ c ∈ ps, IsCharacter c ∧ digit c = true) (hport : url.port = some ps.flatten)
    (hstop : StopsAt digit (P ++ S)) :
    (read lower (Parser.characters url.toString)).SameAs url := by
  have hvalue : url.portValue = ps.flatten :=
    Option.some.inj ((URLParts.port_of_portValue hprints).symm.trans hport)
  have hne : ps ≠ [] := by
    rintro rfl
    exact hprints hvalue
  have hwhole : ∀ c ∈ text ":" :: ps, Parser.IsWhole c := by
    intro c hc
    rcases List.mem_cons.mp hc with rfl | hc
    · exact (isCharacter_singles (s := text ":") (forall_of_all (by decide)) _ List.mem_cons_self).1
    · exact (hps c hc).1.1
  have hmark : StopsAt (others domainCharacters) (text ":" :: (ps ++ (P ++ S))) := fun c hc => by
    rw [← Option.some.inj hc]
    decide
  have hdomain := domainOf_some h.domain_ne h.domain_others hmark
  rw [portOf_some hne (fun c hc => (hps c hc).2) hstop] at hdomain
  rw [h.toString (X := text ":" :: ps) (by rw [if_neg hprints, hvalue]; rfl) hwhole,
    List.cons_append]
  exact h.sameAs hdomain (h.scheme hl _) fun copy hcopy => URLParts.portValue_congr
    (hcopy.trans hport.symm)

theorem Prints.toString_none (h : Prints lower url cs ds P S) (hprints : url.portValue = []) :
    Parser.characters url.toString = cs ++ (singles (text "://") ++ (ds ++ (P ++ S))) :=
  h.toString (X := []) (by rw [if_pos hprints]; rfl) nofun

/-- A slash ends the domain. -/
theorem Prints.sameAs_slash (h : Prints lower url cs ds P S) (hl : Lowers lower)
    (hprints : url.portValue = [])
    (hslash : P.head? = some (text "/")) :
    (read lower (Parser.characters url.toString)).SameAs url := by
  have hfirst : ∀ c ∈ (P ++ S).head?, c = text "/" := by
    intro c hc
    rw [List.head?_append_of_ne_nil _ h.path_ne, hslash] at hc
    exact (Option.some.inj hc).symm
  have hstop : StopsAt (others domainCharacters) (P ++ S) := fun c hc => by
    rw [hfirst c hc]
    decide
  have hdomain := domainOf_some h.domain_ne h.domain_others hstop
  rw [portOf_none fun hcolon => absurd (hfirst _ hcolon) (by decide)] at hdomain
  rw [h.toString_none hprints]
  refine h.sameAs hdomain (h.scheme hl _) fun copy hcopy _ => ?_
  rw [hprints, URLParts.portValue, hcopy]

/-- Anything else does not. -/
theorem Prints.not_sameAs (h : Prints lower url cs ds P S) (hl : Lowers lower)
    (hprints : url.portValue = [])
    (hslash : P.head? ≠ some (text "/")) (hlen : 1 < P.flatten.length) :
    ¬ (read lower (Parser.characters url.toString)).SameAs url := by
  intro hsame
  rw [h.toString_none hprints] at hsame
  have hvalue : url.domainValue = ds.flatten := by
    rw [URLParts.domainValue, h.domain, Option.getD_some]
  have hne : ∀ c ∈ P, c ≠ [] := by
    intro c hc
    obtain ⟨-, b, t, rfl, -⟩ := h.characters c (Or.inr (Or.inr (Or.inl hc)))
    exact List.cons_ne_nil b t
  rcases read_glued h.path_others h.stops (h.scheme hl _) h.domain_ne h.domain_others h.path_ne hne
    hslash with hdiff | hless
  · exact hdiff (hsame.domain.trans hvalue)
  · have hle :=
      URLParts.length_pathValue_le (read lower (cs ++ (singles (text "://") ++ (ds ++ (P ++ S)))))
    rw [hsame.path, ← h.path] at hle
    omega

/-- A URL with a domain. -/
theorem sameAs_some (hl : Lowers lower) (hw : ∀ c ∈ w, IsCharacter c)
    (hscheme : scheme lower w = (protocol, w₁))
    (hne : ds ≠ []) (hds : ∀ c ∈ ds, others domainCharacters c = true) (hdsw : ds ⊆ w)
    (hdomain : domainOf w₁ = (some ds.flatten, port, w₂))
    (hw₂ : w₂ ⊆ w)
    (hport : port = none ∨ ∃ ps : List BString, (∀ c ∈ ps, IsCharacter c ∧ digit c = true) ∧
      port = some ps.flatten ∧ StopsAt digit w₂) :
    (read lower (Parser.characters (read lower w).toString)).SameAs (read lower w) ↔
      (read lower w).Copyable := by
  obtain ⟨cs, S, h⟩ := prints_read hl hw hscheme hne hds hdsw hdomain hw₂
  have hslash := printedPath_slash fun c hc => hw c (hw₂ hc)
  have hread := read_eq hscheme hdomain (Prod.eta _).symm
  have hpath : (read lower w).path = (w₂.takeWhile (others pathCharacters)).flatten := by rw [hread]
  have hparts : (read lower w).port = port := by rw [hread]
  unfold URLParts.Copyable
  rw [if_pos h.origin, hpath, ← hslash]
  by_cases hprints : (read lower w).portValue = []
  · rw [or_iff_right (not_not.mpr hprints)]
    by_cases hhead : (printedPath w₂).head? = some (text "/")
    · exact iff_of_true (h.sameAs_slash hl hprints hhead) hhead
    · exact iff_of_false (h.not_sameAs hl hprints hhead (length_printedPath hhead)) hhead
  · refine iff_of_true ?_ (Or.inl hprints)
    have hsome := URLParts.port_of_portValue hprints
    rcases hport with rfl | ⟨ps, hps, rfl, hstop⟩
    · rw [hparts] at hsome
      cases hsome
    · exact h.sameAs_port hl hprints hps hparts (stopsAt_printedPath hstop (by decide) S)

/-! ### Any URL -/

/-- What is left after a port, and the port where there is one. -/
theorem portOf_cases (w : List BString) : (portOf w).2 ⊆ w ∧
    ((portOf w).1 = none ∨ ∃ ps : List BString, ps ⊆ w ∧ (∀ c ∈ ps, digit c = true) ∧
      (portOf w).1 = some ps.flatten ∧ StopsAt digit (portOf w).2) := by
  unfold portOf
  by_cases hcolon : w.head? = some (text ":")
  · have htail := List.tail_subset w
    rw [if_pos hcolon]
    refine ⟨fun c hc => htail ((List.dropWhile_sublist _).subset hc), ?_⟩
    by_cases hne : w.tail.takeWhile digit = []
    · exact Or.inl (if_pos hne)
    · refine Or.inr ⟨_, fun c hc => htail ((List.takeWhile_sublist _).subset hc), fun c =>
        List.mem_takeWhile_imp, if_neg hne, fun c hc => ?_⟩
      have hnot := List.head?_dropWhile_not digit w.tail
      rw [Option.mem_def.mp hc] at hnot
      simpa using hnot
  · rw [if_neg hcolon]
    exact ⟨List.Subset.refl w, Or.inl rfl⟩

theorem stopsAt_of_takeWhile {p : BString → Bool} (h : w.takeWhile p = []) : StopsAt p w := by
  intro c hc
  have hnot := List.head?_dropWhile_not p w
  rw [dropWhile_of_takeWhile_nil h, Option.mem_def.mp hc] at hnot
  simpa using hnot

/-- What is printed is read as the same parts in exactly the cases of `Copyable`. -/
theorem sameAs_iff (hl : Lowers lower) (hw : ∀ c ∈ w, IsCharacter c) :
    (read lower (Parser.characters (read lower w).toString)).SameAs (read lower w) ↔
      (read lower w).Copyable := by
  obtain ⟨m, -, hm⟩ := scheme_drop lower w
  have hscheme : scheme lower w = (_, w.drop m) := Prod.ext rfl hm
  have hdrop : w.drop m ⊆ w := List.drop_subset m w
  by_cases hdomain : (w.drop m).takeWhile (others domainCharacters) = []
  · exact sameAs_none hl (fun c hc => hw c (hdrop hc)) hscheme (stopsAt_of_takeWhile hdomain)
  · have htake : (w.drop m).takeWhile (others domainCharacters) ⊆ w :=
      fun c hc => hdrop ((List.takeWhile_sublist _).subset hc)
    obtain ⟨hrest, hport⟩ := portOf_cases ((w.drop m).dropWhile (others domainCharacters))
    have hrest' : (w.drop m).dropWhile (others domainCharacters) ⊆ w :=
      fun c hc => hdrop ((List.dropWhile_sublist _).subset hc)
    refine sameAs_some hl hw hscheme hdomain (fun c => List.mem_takeWhile_imp) htake
      (if_neg hdomain) (fun c hc => hrest' (hrest hc)) ?_
    apply hport.imp_right
    rintro ⟨ps, hps, hdigit, hsome, hstop⟩
    exact ⟨ps, fun c hc => ⟨hw c (hrest' (hps hc)), hdigit c hc⟩, hsome, hstop⟩

end URLText

open URLText

section

variable {lower : BString → BString} {input : BString} {url : URLParts}

/-- The copy of a URL is what its text is read as. -/
theorem copy_iff (hl : Lowers lower)
    (h : ∃ n, ∀ fuel, n ≤ fuel → URLParts.parse lower fuel input = .ok url) :
    (∃ n, ∀ fuel, n ≤ fuel → ∃ copy, url.copy lower fuel = .ok copy ∧ copy.SameAs url) ↔
      url.Copyable := by
  obtain rfl : URLText.read lower (Parser.characters input) = url := by
    obtain ⟨n, hn⟩ := h
    exact (parse_iff hl input fun read => read = url).mp ⟨n, fun fuel hf => ⟨url, hn fuel hf, rfl⟩⟩
  rw [← sameAs_iff hl fun c hc => Parser.isWhole_of_mem hc]
  exact parse_iff hl _ fun copy => copy.SameAs _

/-- **The copy of a URL is the same as the URL**, its text and its parts, if and
only if there is an origin, and the path is printed after a port or with a slash
in front, or there is none, and the protocol is the one of a URL without any. -/
theorem copy_exact (hl : Lowers lower)
    (h : ∃ n, ∀ fuel, n ≤ fuel → URLParts.parse lower fuel input = .ok url) :
    (∃ n, ∀ fuel, n ≤ fuel → ∃ copy, url.copy lower fuel = .ok copy ∧ copy.SameAs url) ↔
      if url.origin then url.portValue ≠ [] ∨ url.path.length ≤ 1 ∨ url.path.head? = some 47
      else url.protocolValue = text "https" :=
  copy_iff hl h

end

theorem parse_text {lower : BString → BString} (hl : Lowers lower) {input : BString}
    (h : ∀ b ∈ input, b < 128) :
    ∃ n, ∀ fuel, n ≤ fuel → URLParts.parse lower fuel input =
      .ok (URLText.read lower (singles input)) := by
  rw [← characters_singles h]
  exact parse_eq hl input

/-- `https://a/x` -/
theorem copy_exact_slash : ∃ n, ∀ fuel, n ≤ fuel → ∃ copy,
    (URLText.read (List.map lowerByte) (singles (text "https://a/x"))).copy
    (List.map lowerByte) fuel = .ok copy ∧
      copy.SameAs (URLText.read (List.map lowerByte) (singles (text "https://a/x"))) :=
  (copy_exact lowers_map (parse_text lowers_map (forall_of_all (by decide)))).mpr
    (by decide +kernel)

/-- The domain of the copy of `a:bcd` is `abcd`. -/
theorem copy_lost : ¬ ∀ (input : BString) (url : URLParts),
    (∃ n, ∀ fuel, n ≤ fuel → URLParts.parse (List.map lowerByte) fuel input = .ok url) →
      ∃ n, ∀ fuel, n ≤ fuel → ∃ copy, url.copy (List.map lowerByte) fuel = .ok copy ∧
        copy.SameAs url := by
  intro h
  have hparse :=
    parse_text lowers_map (show ∀ b ∈ text "a:bcd", b < 128 from forall_of_all (by decide))
  have hcopy := (copy_iff lowers_map hparse).mp (h _ _ hparse)
  unfold URLParts.Copyable at hcopy
  revert hcopy
  decide +kernel

end BeeFish
