/-
# The domain of a URL

A protocol is optional, and its letters are matched before the domain. Where a
domain starts with the first letter of a protocol they are gone when it turns
out that there is none: the domain of `hello.com` is `ello.com`, and that of
`http.com` is `.com`. A domain is read as it is if and only if there is a scheme
before it or it does not start with that letter (`domain_exact`).
-/
import BeeFish.Delivery
import BeeFish.URLRules

namespace BeeFish

open BString URLGrammar Utf8

namespace URLText

variable {lower : BString → BString} {w cs : List BString} {port : BString}

theorem isWhole_text (h : IsText cs) : ∀ c ∈ cs, Parser.IsWhole c ∧ ∃ b t, c = b :: t ∧
    (t = [] ∨ 128 ≤ b) :=
  fun c hc => by
  have hmem : c ∈ Parser.characters cs.flatten := by rwa [Parser.characters_text h]
  exact Parser.isWhole_of_mem hmem

theorem agrees_singles (hl : Lowers lower) {s : BString} (h : ∀ b ∈ s, b < 128 ∧ lowerByte b = b) :
    Agrees lower (singles s) s := by
  induction s with
  | nil => exact .nil
  | cons b s ih =>
    obtain ⟨⟨hb, hlower⟩, hs⟩ := List.forall_mem_cons.mp h
    refine .cons ?_ (ih hs)
    rw [hl.ascii [b] (by simpa using hb), List.map_singleton, hlower]

/-- The letter that a protocol starts with. -/
theorem lower_eq_h (hl : Lowers lower) {b : UInt8} {t : BString} (ht : t = [] ∨ 128 ≤ b) :
    lower (b :: t) = [104] ↔ b = 104 ∨ b = 72 := by
  have hall : ∀ n : Fin 256, lowerByte (UInt8.ofNat n) = 104 ↔ UInt8.ofNat n = 104 ∨
    UInt8.ofNat n = 72 := by decide +kernel
  by_cases hb : 128 ≤ b
  · obtain ⟨b', t', heq, hb'⟩ := hl.other b t hb
    constructor
    · intro h
      rw [heq] at h
      rw [(List.cons.inj h).1] at hb'
      exact absurd (by decide) hb'
    · rintro (rfl | rfl) <;> exact absurd hb (by decide)
  · obtain rfl := ht.resolve_right hb
    rw [hl.ascii [b] (by simpa using UInt8.not_le.mp hb), List.map_singleton, List.singleton_inj]
    simpa using hall ⟨b.toNat, b.toNat_lt⟩

/-- What a protocol leaves of the text. -/
theorem scheme_drop (lower : BString → BString) (w : List BString) :
    ∃ m, Match.common lower (text "https") w ≤ m ∧ (scheme lower w).2 = w.drop m := by
  unfold scheme
  simp only
  split_ifs
  · exact ⟨_, Nat.le_add_right _ _, List.drop_drop⟩
  · exact ⟨_, Nat.le_refl _, rfl⟩

/-! ### Domains -/

/-- The characters of a port after a colon. -/
def IsPort (port : BString) : Prop :=
  port = [] ∨ ∃ digits, port = text ":" ++ digits ∧ ∀ b ∈ digits, isDigit b = true

theorem isPort_ascii (h : IsPort port) : ∀ b ∈ port, b < 128 ∧ b ≠ 104 ∧ b ≠ 72 := by
  rcases h with rfl | ⟨digits, rfl, hdigits⟩
  · exact nofun
  · intro b hb
    rcases List.mem_append.mp hb with hb | hb
    · exact (forall_of_all (by decide) : ∀ b ∈ text ":", b < 128 ∧ b ≠ 104 ∧ b ≠ 72) b hb
    · have hall : ∀ n : Fin 256, isDigit (UInt8.ofNat n) = true →
          UInt8.ofNat n < 128 ∧ UInt8.ofNat n ≠ 104 ∧ UInt8.ofNat n ≠ 72 := by decide +kernel
      simpa using hall ⟨b.toNat, b.toNat_lt⟩ (by simpa using hdigits b hb)

theorem stopsAt_port (h : IsPort port) : StopsAt (others domainCharacters) (singles port) := by
  rcases h with rfl | ⟨digits, rfl, -⟩
  · exact nofun
  · intro c hc
    rw [← Option.some.inj (show some (text ":") = some c from hc)]
    decide

theorem others_domain (h : ∀ b ∈ cs.flatten, URL.domainCharacter b = true) :
    ∀ c ∈ cs, others domainCharacters c = true := by
  intro c hc
  rw [others, Bool.not_eq_true', decide_eq_false_iff_not]
  intro hmem
  have hmarks : ∀ c ∈ domainCharacters, ∃ b ∈ c, URL.domainCharacter b = false := by decide
  obtain ⟨b, hb, hfalse⟩ := hmarks c hmem
  rw [h b (List.mem_flatten.mpr ⟨c, hc, hb⟩)] at hfalse
  cases hfalse

/-- A domain whose first letter is gone is another one. -/
theorem domainOf_drop (hl : Lowers lower) (ht : IsText cs) (hne : cs ≠ [])
    (hcs : ∀ c ∈ cs, others domainCharacters c = true)
    (hp : IsPort port) (hfirst : ∀ c ∈ cs.head?, lower c = [104]) {m : ℕ} (hm : 1 ≤ m) :
    (domainOf ((cs ++ singles port).drop m)).1.getD [] ≠ cs.flatten := by
  obtain ⟨c, cs, rfl⟩ := List.exists_cons_of_ne_nil hne
  have hnil : ([] : BString) ≠ (c :: cs).flatten := by
    intro h
    obtain ⟨-, b, t, rfl, -⟩ := isWhole_text ht c List.mem_cons_self
    cases h
  unfold domainOf
  simp only
  split_ifs with htake
  · exact hnil
  · intro hflat
    -- characters are not split or joined, so they are the same
    have hwhole : ∀ d ∈ (c :: cs) ++ singles port, Parser.IsWhole d := by
      intro d hd
      rcases List.mem_append.mp hd with hd | hd
      · exact (isWhole_text ht d hd).1
      · obtain ⟨b, hb, rfl⟩ := List.mem_map.mp hd
        exact Parser.isWhole_ascii (isPort_ascii hp b hb).1
    have hD :
        (((c :: cs) ++ singles port).drop m).takeWhile (others domainCharacters) = c :: cs := by
      have hchars := congrArg Parser.characters hflat
      rwa [Option.getD_some, Parser.characters_of_whole fun d hd =>
        hwhole d (List.mem_of_mem_drop ((List.takeWhile_sublist _).subset hd)),
        Parser.characters_text ht] at hchars
    by_cases hlen : m ≤ (c :: cs).length
    · rw [List.drop_append_of_le_length hlen,
        (URL.takeWhile_stop (fun d hd => hcs d (List.mem_of_mem_drop hd))
          (stopsAt_port hp)).1] at hD
      have := congrArg List.length hD
      rw [List.length_drop, List.length_cons] at this
      omega
    · rw [List.drop_append, List.drop_eq_nil_of_le (Nat.le_of_not_le hlen), List.nil_append] at hD
      have hmem : c ∈ singles port :=
        List.mem_of_mem_drop ((List.takeWhile_sublist _).subset (hD ▸ List.mem_cons_self))
      obtain ⟨b, hb, rfl⟩ := List.mem_map.mp hmem
      obtain ⟨-, h1, h2⟩ := isPort_ascii hp b hb
      rcases (lower_eq_h hl (Or.inl rfl)).mp (hfirst [b] rfl) with h | h
      · exact h1 h
      · exact h2 h

/-- The domain of a text without a scheme. -/
theorem read_domain_none (hl : Lowers lower) (ht : IsText cs) (hne : cs ≠ [])
    (hcs : ∀ c ∈ cs, others domainCharacters c = true)
    (hp : IsPort port) : (read lower (cs ++ singles port)).domainValue = cs.flatten ↔
      cs.flatten.head? ≠ some 104 ∧ cs.flatten.head? ≠ some 72 := by
  have hfirst : (∀ c ∈ cs.head?, lower c = [104]) ↔ cs.flatten.head? = some 104 ∨
    cs.flatten.head? = some 72 := by
    obtain ⟨c, cs, rfl⟩ := List.exists_cons_of_ne_nil hne
    obtain ⟨-, b, t, rfl, htail⟩ := isWhole_text ht c List.mem_cons_self
    simpa using lower_eq_h hl htail
  rw [← not_or, ← hfirst]
  have hdomain : (read lower (cs ++ singles port)).domainValue =
    (domainOf (scheme lower (cs ++ singles port)).2).1.getD [] := rfl
  rw [hdomain]
  constructor
  · intro h hletter
    obtain ⟨m, hm, hdrop⟩ := scheme_drop lower (cs ++ singles port)
    have hone : 1 ≤ Match.common lower (text "https") (cs ++ singles port) := by
      obtain ⟨c, cs, rfl⟩ := List.exists_cons_of_ne_nil hne
      rw [show text "https" = 104 :: text "ttps" by decide, List.cons_append, Match.common,
        if_pos (hletter c rfl)]
      exact Nat.le_add_left 1 _
    rw [hdrop] at h
    exact domainOf_drop hl ht hne hcs hp hletter (Nat.le_trans hone hm) h
  · intro h
    have hhead : ∀ c ∈ (cs ++ singles port).head?, lower c ≠ [104] := by
      intro c hc heq
      obtain ⟨d, ds, rfl⟩ := List.exists_cons_of_ne_nil hne
      obtain rfl : d = c := Option.some.inj hc
      exact h fun e he => (Option.some.inj he) ▸ heq
    rw [scheme_none hhead, domainOf_some hne hcs (stopsAt_port hp), Option.getD_some]

/-- The domain of a text with a scheme. -/
theorem read_domain_some (hl : Lowers lower) (hne : cs ≠ [])
    (hcs : ∀ c ∈ cs, others domainCharacters c = true) (hp : IsPort port)
    {s : BString} (hs : s = text "http" ∨ s = text "https") :
    (read lower (singles s ++ (singles (text "://") ++ (cs ++ singles port)))).domainValue =
      cs.flatten := by
  have hagrees : Agrees lower (singles s) s := by
    refine agrees_singles hl ?_
    rcases hs with rfl | rfl <;> exact forall_of_all (by decide)
  have hcolon : lower [58] = [58] := hl.ascii [58] (forall_of_all (by decide))
  have hdomain : ∀ w, (read lower w).domainValue = (domainOf (scheme lower w).2).1.getD [] :=
    fun _ => rfl
  rw [hdomain, scheme_marks hs hagrees hcolon, domainOf_some hne hcs (stopsAt_port hp),
    Option.getD_some]

end URLText

open URLText

section

variable {lower : BString → BString} {cs : List BString} {scheme port : BString}

/-- **The domain of a URL is the one in its text**, with or without a scheme and a
port, if and only if there is a scheme or the domain does not start with the
first letter of one. -/
theorem domain_exact (hl : Lowers lower) (ht : IsText cs) (hne : cs ≠ [])
    (hcs : ∀ b ∈ cs.flatten, URL.domainCharacter b = true)
    (hs : scheme = [] ∨ scheme = text "http://" ∨ scheme = text "https://") (hp : IsPort port) :
    (∃ n, ∀ fuel, n ≤ fuel → ∃ url, URLParts.parse lower fuel (scheme ++ cs.flatten ++ port) =
      .ok url ∧ url.domainValue = cs.flatten) ↔
      scheme ≠ [] ∨ cs.flatten.head? ≠ some 104 ∧ cs.flatten.head? ≠ some 72 := by
  have hcs' := others_domain hcs
  have hcharacters : ∀ s : BString, (∀ b ∈ s, b < 128) →
    Parser.characters (s ++ cs.flatten ++ port) = singles s ++ (cs ++ singles port) := by
    intro s hascii
    have hsingles : ∀ {s : BString}, (∀ b ∈ s, b < 128) → ∀ c ∈ singles s, Parser.IsWhole c := by
      intro s hascii c hc
      obtain ⟨b, hb, rfl⟩ := List.mem_map.mp hc
      exact Parser.isWhole_ascii (hascii b hb)
    have happend := Parser.characters_append (hsingles hascii) (cs.flatten ++ port)
    rw [flatten_singles, ← List.append_assoc, Parser.characters_append fun c hc =>
      (isWhole_text ht c hc).1] at happend
    rw [happend, characters_singles fun b hb => (isPort_ascii hp b hb).1]
  have hmarks : ∀ {s : BString}, s = text "http" ∨ s = text "https" →
      (URLText.read lower (singles (s ++ text "://") ++ (cs ++ singles port))).domainValue =
        cs.flatten := by
    intro s hs
    rw [singles_append, List.append_assoc]
    exact read_domain_some hl hne hcs' hp hs
  rw [parse_iff hl _ fun url => url.domainValue = cs.flatten]
  rcases hs with rfl | rfl | rfl
  · rw [hcharacters [] nofun, show singles [] = [] from rfl, List.nil_append,
      read_domain_none hl ht hne hcs' hp]
    simp
  · rw [hcharacters (text "http://") (forall_of_all (by decide))]
    exact iff_of_true (hmarks (Or.inl rfl)) (Or.inl (by decide))
  · rw [hcharacters (text "https://") (forall_of_all (by decide))]
    exact iff_of_true (hmarks (Or.inr rfl)) (Or.inl (by decide))

end

theorem isText_singles {s : BString} (h : ∀ b ∈ s, b < 128) : IsText (singles s) := fun c hc => by
  obtain ⟨b, hb, rfl⟩ := List.mem_map.mp hc
  exact isChar_ascii (h b hb)

/-- `https://a.b:81` -/
theorem domain_exact_https : ∃ n, ∀ fuel, n ≤ fuel → ∃ url,
    URLParts.parse (List.map lowerByte) fuel
        (text "https://" ++ (singles (text "a.b")).flatten ++ text ":81") = .ok url ∧
      url.domainValue = (singles (text "a.b")).flatten :=
  (domain_exact lowers_map (isText_singles (forall_of_all (by decide))) (by decide)
    (forall_of_all (by decide)) (Or.inr (Or.inr rfl))
    (Or.inr ⟨text "81", by decide, forall_of_all (by decide)⟩)).mpr (Or.inl (by decide))

/-- The first letter of `hello.com` is gone. -/
theorem domain_lost : ¬ ∃ n, ∀ fuel, n ≤ fuel → ∃ url,
    URLParts.parse (List.map lowerByte) fuel (text "hello.com") = .ok url ∧
      url.domainValue = text "hello.com" := by
  rw [parse_iff lowers_map _ fun url => url.domainValue = text "hello.com",
    characters_singles (forall_of_all (by decide))]
  decide +kernel

/-- All of `http` is. -/
example : (URLText.read (List.map lowerByte) (singles (text "http.com:80"))).domainValue =
    text ".com" := by
  decide +kernel

end BeeFish
