/-
# A URL that is put together

How the text of a URL is read part by part when it is put together of its parts:
a protocol with its marks, the characters of a domain up to a mark, a port after
a colon, a path and a search up to the next part.

Key definitions: `URLText.Agrees`, `URLText.StopsAt`.
-/
import Mathlib.Data.List.Forall2
import BeeFish.URLText

namespace BeeFish

open Match URLGrammar BString

/-! ### ASCII -/

namespace BString

/-- The bytes of a text as its characters. -/
def singles (s : BString) : List BString := s.map fun b => [b]

theorem singles_append (s t : BString) : singles (s ++ t) = singles s ++ singles t :=
  List.map_append

theorem flatten_singles (s : BString) : (singles s).flatten = s := by
  induction s with
  | nil => rfl
  | cons b s ih => exact congrArg (b :: ·) ih

theorem characters_singles {s : BString} (h : ∀ b ∈ s, b < 128) :
    Parser.characters s = singles s := by
  have hwhole : ∀ c ∈ singles s, Parser.IsWhole c := by
    intro c hc
    obtain ⟨b, hb, rfl⟩ := List.mem_map.mp hc
    exact Parser.isWhole_ascii (h b hb)
  have hflatten := Parser.characters_of_whole hwhole
  rwa [flatten_singles] at hflatten

end BString

namespace URLText

variable {lower : BString → BString} {w cs : List BString} {letters rest : BString} {x : UInt8}

/-- The characters are the letters, in any case. -/
def Agrees (lower : BString → BString) (cs : List BString) (letters : BString) : Prop :=
  List.Forall₂ (fun c x => lower c = [x]) cs letters

/-- The text does not go on with a character of a class. -/
def StopsAt (p : BString → Bool) (w : List BString) : Prop := ∀ c ∈ w.head?, p c = false

/-! ### Letters -/

theorem common_append (h : Agrees lower cs letters) :
    common lower (letters ++ rest) (cs ++ w) = letters.length + common lower rest w := by
  induction h with
  | nil => simp
  | cons hc _ ih =>
    rw [List.cons_append, List.cons_append, common, if_pos hc, ih, List.length_cons]
    omega

theorem common_stop (h : ∀ c ∈ w.head?, lower c ≠ [x]) : common lower (x :: rest) w = 0 := by
  cases w with
  | nil => rfl
  | cons c w => rw [common, if_neg (h c rfl)]

/-- The characters that agree with a word. -/
theorem agrees_common : ∀ (letters : BString) (w : List BString),
    Agrees lower (w.take (common lower letters w)) (letters.take (common lower letters w))
  | [], w => by
    cases w <;> exact .nil
  | _ :: _, [] => .nil
  | x :: letters, c :: w => by
    rw [common]
    split_ifs with hc
    · exact .cons hc (agrees_common letters w)
    · exact .nil

/-! ### Protocols -/

/-- The text of a URL that has no letter of a protocol in front. -/
theorem scheme_none (h : ∀ c ∈ w.head?, lower c ≠ [104]) : scheme lower w = (none, w) := by
  rw [scheme, show text "https" = 104 :: text "ttps" by decide, common_stop h]
  rfl

theorem agrees_marks : Agrees id (singles (text "://")) (text "://") := by
  rw [show singles (text "://") = [[58], [47], [47]] by decide,
    show text "://" = [58, 47, 47] by decide]
  exact .cons rfl (.cons rfl (.cons rfl .nil))

/-- A protocol with its marks. -/
theorem scheme_marks (hletters : letters = text "http" ∨ letters = text "https")
    (h : Agrees lower cs letters) (hcolon : lower [58] = [58])
    (w : List BString) :
    scheme lower (cs ++ (singles (text "://") ++ w)) = (some cs.flatten, w) := by
  have hlen : cs.length = letters.length := h.length_eq
  have hmarks : common id (text "://") (singles (text "://") ++ w) = 3 := by
    have happend : common id (text "://" ++ []) (singles (text "://") ++ w) = _ :=
      common_append agrees_marks
    rwa [List.append_nil] at happend
  have hn : common lower (text "https") (cs ++ (singles (text "://") ++ w)) = cs.length := by
    rcases hletters with rfl | rfl
    · have hstop : ∀ c ∈ (singles (text "://") ++ w).head?, lower c ≠ [115] := by
        intro c hc
        rw [← Option.some.inj (show some [58] = some c from hc), hcolon]
        decide
      rw [show text "https" = text "http" ++ [115] by decide, common_append h,
        common_stop hstop, hlen]
      rfl
    · have happend : common lower (text "https" ++ []) (cs ++ (singles (text "://") ++ w)) = _ :=
        common_append h
      rwa [List.append_nil, ← hlen] at happend
  have h4 : 4 ≤ cs.length := by
    rw [hlen]
    rcases hletters with rfl | rfl <;> decide
  rw [scheme, hn, if_pos h4, List.take_left, List.drop_left, hmarks]
  rfl

/-! ### Domains and ports -/

theorem domainOf_none (h : StopsAt (others domainCharacters) w) : domainOf w = (none, none, w) := by
  have htake : w.takeWhile (others domainCharacters) = [] := by
    cases w with
    | nil => rfl
    | cons c w => exact List.takeWhile_cons_of_neg (by rw [h c rfl]; decide)
  rw [domainOf, if_pos htake]

theorem domainOf_some (hne : cs ≠ []) (hcs : ∀ c ∈ cs, others domainCharacters c = true)
    (h : StopsAt (others domainCharacters) w) :
    domainOf (cs ++ w) = (some cs.flatten, portOf w) := by
  obtain ⟨htake, hdrop⟩ := URL.takeWhile_stop hcs h
  rw [domainOf, htake, hdrop, if_neg hne]

theorem portOf_none (h : w.head? ≠ some (text ":")) : portOf w = (none, w) := if_neg h

theorem portOf_some (hne : cs ≠ []) (hcs : ∀ c ∈ cs, digit c = true) (h : StopsAt digit w) :
    portOf (text ":" :: (cs ++ w)) = (some cs.flatten, w) := by
  obtain ⟨htake, hdrop⟩ := URL.takeWhile_stop hcs h
  rw [portOf, if_pos (show (text ":" :: (cs ++ w)).head? = some (text ":") from rfl),
    List.tail_cons, htake, hdrop, if_neg hne]

/-! ### The whole text -/

/-- A text is read part by part. -/
theorem read_eq {w₁ w₂ : List BString} {protocol domain port : Option BString} {search : BString}
    {pairs : List (BString × BString)}
    (hscheme : scheme lower w = (protocol, w₁)) (hdomain : domainOf w₁ = (domain, port, w₂))
    (hsearch : searchOf (w₂.dropWhile (others pathCharacters)) = (search, pairs)) :
    read lower w = ⟨domain.isSome, protocol, domain, port,
      (w₂.takeWhile (others pathCharacters)).flatten, search, itemsOf pairs⟩ := by
  rw [read, hscheme]
  simp only [hdomain, hsearch]

end URLText

end BeeFish
