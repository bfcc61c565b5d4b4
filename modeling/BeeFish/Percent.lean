/-
# Percent signs

`BString::encodeURI` (b-string/b-string-base.h) writes a byte that is not a
letter, a digit or one of a few marks as a percent sign and two hexadecimal
digits, and `decodeURI` reads them back. At a percent sign `decodeURI` takes
two bytes without asking whether they are there, and where `sscanf` reads no
number it uses the variable as it is, which is not set at first. Its index is
an `int`. So a text is decoded without a fault exactly when two bytes follow
each percent sign and the first are a number, and what was encoded comes back
as long as its length is an `int` (`decodeURI_exact`).

Key definitions: `encodeURI`, `decodeURIChecked`, `marks`.
-/
import BeeFish.URL

namespace BeeFish

namespace BString

/-- A check of each byte of a text. -/
theorem forall_of_all {p : UInt8 → Prop} [DecidablePred p] {s : BString}
    (h : s.all (fun b => decide (p b)) = true) : ∀ b ∈ s, p b := by
  simpa using h

/-! ### Numbers in hexadecimal -/

/-- `isalnum` in the locale `C` -/
def isalnum (c : UInt8) : Bool := 48 ≤ c && c ≤ 57 || 65 ≤ c && c ≤ 90 || 97 ≤ c && c ≤ 122

/-- `isspace` in the locale `C` -/
def isspace (c : UInt8) : Bool := c == 32 || 9 ≤ c && c ≤ 13

/-- `isxdigit` -/
def isxdigit (c : UInt8) : Bool := 48 ≤ c && c ≤ 57 || 65 ≤ c && c ≤ 70 || 97 ≤ c && c ≤ 102

/-- The value of a hexadecimal digit. -/
def hexValue (c : UInt8) : ℕ :=
  if c ≤ 57 then c.toNat - 48 else if c ≤ 70 then c.toNat - 55 else c.toNat - 87

/-- A hexadecimal digit, in upper case. -/
def hexDigit (n : ℕ) : UInt8 := UInt8.ofNat (if n < 10 then 48 + n else 55 + n)

/-- The hexadecimal digits of a number that may start with `0x`. glibc takes the
zero for one, so that `0x` alone is read as 0. -/
def hexDigits (s : BString) : BString :=
  match s with
  | 48 :: x :: rest =>
    if x = 88 || x = 120 then 48 :: rest.takeWhile isxdigit else s.takeWhile isxdigit
  | _ => s.takeWhile isxdigit

/-- `sscanf` of `"%x"`: the number it writes to an `int`, none where it reads
none. The C string ends at a zero. -/
def sscanf (part : BString) : Option ℕ :=
  let s := (part.takeWhile (· ≠ 0)).dropWhile isspace
  let (negative, s) := match s with
    | 45 :: s => (true, s)
    | 43 :: s => (false, s)
    | s => (false, s)
  let digits := hexDigits s
  if digits = [] then none
  else
    let value := digits.foldl (fun n c => 16 * n + hexValue c) 0
    some (if negative then (2 ^ 32 - value) % 2 ^ 32 else value)

/-! ### Encoding -/

/-- A byte that `encodeURI` keeps. -/
def keeps (c : UInt8) : Bool :=
  isalnum c || c == 45 || c == 95 || c == 46 || c == 126 || c == 123 || c == 125 || c == 39

/-- What `encodeURI` writes for a byte. -/
def encodeByte (c : UInt8) : BString :=
  if keeps c then [c] else [37, hexDigit (c.toNat / 16), hexDigit (c.toNat % 16)]

/-- `BString::encodeURI` -/
def encodeURI (s : BString) : BString := s.flatMap encodeByte

/-! ### Decoding -/

/-- What goes wrong in `decodeURI`. -/
inductive Fault where
  /-- A byte outside a string is read or written. -/
  | outside
  /-- The number is used that is not set. -/
  | unset
  deriving DecidableEq, Repr

/-- `BString::substr` -/
def substr (s : BString) (pos len : ℕ) : Except Fault BString :=
  if pos + len ≤ s.length then .ok ((s.drop pos).take len) else .error .outside

/-- A length in an `int`; zero for a negative one. -/
def intLength (s : BString) : ℕ := ((s.length : ℤ).bmod (2 ^ 32)).toNat

/-- The loop of `decodeURI`. The index after a percent sign has to fit in an
`int`: one that does not is negative, and the byte there is outside. -/
def decodeLoop (encoded : BString) (len i : ℕ) (ii : Option ℕ) : Except Fault BString :=
  if i < len then
    match encoded[i]? with
    | none => .error .outside
    | some c =>
      if c ≠ 37 then do
        let decoded ← decodeLoop encoded len (i + 1) ii
        return c :: decoded
      else do
        let part ← encoded.substr (i + 1) 2
        match (sscanf part).or ii with
        | none => .error .unset
        | some ii =>
          if i + 3 < 2 ^ 31 then do
            let decoded ← decodeLoop encoded len (i + 3) (some ii)
            return UInt8.ofNat ii :: decoded
          else .error .outside
  else .ok []
termination_by len - i

/-- `BString::decodeURI`, with the faults that stop it. -/
def decodeURIChecked (s : BString) : Except Fault BString := decodeLoop s s.intLength 0 none

/-- The percent signs that the loop meets from `i` on: not those in the two
bytes after another one. -/
def marksFrom (s : BString) (len i : ℕ) : List ℕ :=
  if i < len then
    if s[i]? = some 37 then i :: marksFrom s len (i + 3) else marksFrom s len (i + 1)
  else []
termination_by len - i

def marks (s : BString) : List ℕ := marksFrom s s.intLength 0

/-! ### One step of the loop -/

variable {s : BString} {len i : ℕ} {ii : Option ℕ}

theorem intLength_le (s : BString) : s.intLength ≤ s.length := by
  unfold intLength
  have hneg : ((s.length : ℤ).bmod (2 ^ 32)) ≤ s.length := by
    rw [Int.bmod_def]
    split_ifs <;> omega
  omega

/-- A length that is an `int` is kept. -/
theorem intLength_eq (h : s.length < 2 ^ 31) : s.intLength = s.length := by
  unfold intLength
  have : ((s.length : ℤ).bmod (2 ^ 32)) = s.length := by
    rw [Int.bmod_def]
    split_ifs <;> omega
  rw [this, Int.toNat_natCast]

/-- A length that is not is counted from the next power on. -/
theorem intLength_lt (h : 2 ^ 31 ≤ s.length) : s.intLength < 2 ^ 31 ∧
    (s.intLength = 0 ∨ s.intLength + 2 ^ 32 ≤ s.length) := by
  unfold intLength
  have hlt : ((s.length : ℤ).bmod (2 ^ 32)) < 2 ^ 31 := by
    rw [Int.bmod_def]
    split_ifs <;> omega
  have hle : ((s.length : ℤ).bmod (2 ^ 32)) + 2 ^ 32 ≤ s.length := by
    rw [Int.bmod_def]
    split_ifs <;> omega
  omega

theorem substr_of_le {pos n : ℕ} (h : pos + n ≤ s.length) :
    s.substr pos n = .ok ((s.drop pos).take n) :=
  if_pos h

theorem decodeLoop_end (h : len ≤ i) : decodeLoop s len i ii = .ok [] := by
  rw [decodeLoop, if_neg (Nat.not_lt.mpr h)]

/-- Any other byte is kept. -/
theorem decodeLoop_byte {c : UInt8} (h : i < len) (hc : s[i]? = some c) (hne : c ≠ 37) :
    decodeLoop s len i ii = (c :: ·) <$> decodeLoop s len (i + 1) ii := by
  rw [decodeLoop, if_pos h, hc]
  simp only [hne, ne_eq, not_false_eq_true, if_true]
  cases decodeLoop s len (i + 1) ii <;> rfl

/-- A percent sign with a number after it. -/
theorem decodeLoop_mark {n : ℕ} (h : i < len) (hc : s[i]? = some 37) (htwo : i + 2 < s.length)
    (hint : i + 3 < 2 ^ 31)
    (hn : (sscanf ((s.drop (i + 1)).take 2)).or ii = some n) :
    decodeLoop s len i ii = (UInt8.ofNat n :: ·) <$> decodeLoop s len (i + 3) (some n) := by
  have hsub := substr_of_le (show i + 1 + 2 ≤ s.length by omega)
  rw [decodeLoop, if_pos h, hc]
  simp only [ne_eq, not_true_eq_false, if_false, hsub, bind, Except.bind, hn, hint, if_true]
  cases decodeLoop s len (i + 3) (some n) <;> rfl

/-- Where a percent sign is decoded two bytes follow it, and there is a number. -/
theorem of_decodeLoop_mark {t : BString} (h : i < len) (hc : s[i]? = some 37)
    (ht : decodeLoop s len i ii = .ok t) :
    i + 2 < s.length ∧ i + 3 < 2 ^ 31 ∧ ((sscanf ((s.drop (i + 1)).take 2)).or ii).isSome := by
  rw [decodeLoop, if_pos h, hc] at ht
  by_cases htwo : i + 1 + 2 ≤ s.length
  · simp only [ne_eq, not_true_eq_false, if_false, substr_of_le htwo, bind, Except.bind] at ht
    cases hn : (sscanf ((s.drop (i + 1)).take 2)).or ii with
    | none => simp [hn] at ht
    | some n =>
      simp only [hn] at ht
      split_ifs at ht with hint
      exact ⟨by omega, hint, rfl⟩
  · simp [substr, htwo, bind, Except.bind] at ht

/-! ### Texts that are decoded -/

/-- The condition on the percent signs from `i` on. -/
def Decodable (s : BString) (len i : ℕ) (ii : Option ℕ) : Prop :=
  (∀ j ∈ marksFrom s len i, j + 2 < s.length ∧ j + 3 < 2 ^ 31) ∧
    (ii = none → ∀ j, (marksFrom s len i).head? = some j →
      (sscanf ((s.drop (j + 1)).take 2)).isSome)

theorem decodeLoop_ok_iff (hlen : len ≤ s.length) (i : ℕ) (ii : Option ℕ) :
    (∃ t, decodeLoop s len i ii = .ok t) ↔ Decodable s len i ii := by
  unfold Decodable
  by_cases h : i < len
  · obtain ⟨c, hc⟩ : ∃ c, s[i]? = some c := ⟨s[i], by simp⟩
    by_cases hmark : c = 37
    · subst hmark
      have hmarks : marksFrom s len i = i :: marksFrom s len (i + 3) := by
        rw [marksFrom, if_pos h, if_pos hc]
      rw [hmarks, List.forall_mem_cons]
      constructor
      · rintro ⟨t, ht⟩
        obtain ⟨htwo, hint, hsome⟩ := of_decodeLoop_mark h hc ht
        obtain ⟨n, hn⟩ := Option.isSome_iff_exists.mp hsome
        rw [decodeLoop_mark h hc htwo hint hn] at ht
        have hrest : ∃ t, decodeLoop s len (i + 3) (some n) = .ok t := by
          cases hr : decodeLoop s len (i + 3) (some n) with
          | error e => simp [hr] at ht
          | ok t => exact ⟨t, rfl⟩
        refine ⟨⟨⟨htwo, hint⟩, ((decodeLoop_ok_iff hlen (i + 3) (some n)).mp hrest).1⟩, ?_⟩
        rintro rfl j hj
        obtain rfl : i = j := by simpa using hj
        simpa using hsome
      · rintro ⟨⟨⟨htwo, hint⟩, hall⟩, hfirst⟩
        obtain ⟨n, hn⟩ : ∃ n, (sscanf ((s.drop (i + 1)).take 2)).or ii = some n := by
          cases ii with
          | none =>
            rw [Option.or_none]
            exact Option.isSome_iff_exists.mp (hfirst rfl i rfl)
          | some n => cases sscanf ((s.drop (i + 1)).take 2) <;> simp
        obtain ⟨t, ht⟩ := (decodeLoop_ok_iff hlen (i + 3) (some n)).mpr ⟨hall, nofun⟩
        rw [decodeLoop_mark h hc htwo hint hn, ht]
        exact ⟨_, rfl⟩
    · have hmarks : marksFrom s len i = marksFrom s len (i + 1) := by
        rw [marksFrom, if_pos h, hc, if_neg (by simpa using hmark)]
      rw [hmarks, ← Decodable, ← decodeLoop_ok_iff hlen (i + 1) ii, decodeLoop_byte h hc hmark]
      constructor
      · rintro ⟨t, ht⟩
        cases hr : decodeLoop s len (i + 1) ii with
        | error e => simp [hr] at ht
        | ok t => exact ⟨t, rfl⟩
      · rintro ⟨t, ht⟩
        rw [ht]
        exact ⟨_, rfl⟩
  · rw [decodeLoop_end (Nat.not_lt.mp h), marksFrom, if_neg h]
    simp
termination_by len - i

theorem exists_of_map_ok {c : UInt8} {r : Except Fault BString} {t : BString}
    (h : (c :: ·) <$> r = .ok t) :
    ∃ u, r = .ok u ∧ t = c :: u := by
  cases r with
  | error e => cases h
  | ok u => exact ⟨u, rfl, by simpa using h.symm⟩

/-- A byte at least is read for each that is decoded. -/
theorem length_decodeLoop (hlen : len ≤ s.length) (i : ℕ) (ii : Option ℕ) {t : BString}
    (ht : decodeLoop s len i ii = .ok t) :
    t.length ≤ len - i := by
  by_cases h : i < len
  · obtain ⟨c, hc⟩ : ∃ c, s[i]? = some c := ⟨s[i], by simp⟩
    by_cases hmark : c = 37
    · subst hmark
      obtain ⟨htwo, hint, hsome⟩ := of_decodeLoop_mark h hc ht
      obtain ⟨n, hn⟩ := Option.isSome_iff_exists.mp hsome
      rw [decodeLoop_mark h hc htwo hint hn] at ht
      obtain ⟨u, hu, rfl⟩ := exists_of_map_ok ht
      have := length_decodeLoop hlen (i + 3) (some n) hu
      rw [List.length_cons]
      omega
    · rw [decodeLoop_byte h hc hmark] at ht
      obtain ⟨u, hu, rfl⟩ := exists_of_map_ok ht
      have := length_decodeLoop hlen (i + 1) ii hu
      rw [List.length_cons]
      omega
  · rw [decodeLoop_end (Nat.not_lt.mp h)] at ht
    obtain rfl : [] = t := by simpa using ht
    exact Nat.zero_le _
termination_by len - i

/-! ### What was encoded -/

theorem keeps_ne {c : UInt8} (h : keeps c) : c ≠ 37 := by
  rintro rfl
  exact absurd h (by decide)

/-- The two digits of a byte are read as the byte. -/
theorem sscanf_hexDigit (c : UInt8) :
    sscanf [hexDigit (c.toNat / 16), hexDigit (c.toNat % 16)] = some c.toNat := by
  have hall : ∀ n : Fin 256,
    sscanf [hexDigit (n.val / 16), hexDigit (n.val % 16)] = some n.val := by decide +kernel
  exact hall ⟨c.toNat, c.toNat_lt⟩

theorem length_encodeByte (c : UInt8) : 1 ≤ (encodeByte c).length ∧ (encodeByte c).length ≤ 3 := by
  unfold encodeByte
  split_ifs <;> simp

theorem length_encodeURI : ∀ s : BString, (encodeURI s).length ≤ 3 * s.length
  | [] => Nat.le_refl 0
  | c :: s => by
    have hc := (length_encodeByte c).2
    have hs := length_encodeURI s
    unfold encodeURI at hs ⊢
    simp only [List.flatMap_cons, List.length_append, List.length_cons]
    omega

/-- The loop gives the bytes whose encodings are still to come. -/
theorem decodeLoop_encodeURI :
    ∀ (post pre : BString) (ii : Option ℕ), (pre ++ encodeURI post).length < 2 ^ 31 →
    decodeLoop (pre ++ encodeURI post) (pre ++ encodeURI post).length pre.length ii = .ok post
  | [], pre, ii, _ => decodeLoop_end (by simp [encodeURI])
  | c :: post, pre, ii, hint => by
    have hcons : pre ++ encodeURI (c :: post) = pre ++ encodeByte c ++ encodeURI post := by
      simp [encodeURI]
    rw [hcons] at hint ⊢
    have ih := fun ii => decodeLoop_encodeURI post (pre ++ encodeByte c) ii hint
    by_cases hk : keeps c
    · have hbyte : encodeByte c = [c] := if_pos hk
      rw [hbyte] at ih ⊢
      rw [decodeLoop_byte (by simp) (by simp) (keeps_ne hk), ← List.length_singleton (a := c),
        ← List.length_append, ih]
      rfl
    · have hbyte : encodeByte c = [37, hexDigit (c.toNat / 16), hexDigit (c.toNat % 16)] :=
        if_neg hk
      rw [hbyte] at ih hint ⊢
      simp only [List.length_append, List.length_cons, List.length_nil] at hint
      have hpart :
        ((pre ++ [37, hexDigit (c.toNat / 16), hexDigit (c.toNat % 16)] ++ encodeURI post).drop
        (pre.length + 1)).take 2 =
          [hexDigit (c.toNat / 16), hexDigit (c.toNat % 16)] := by
        rw [List.append_assoc, ← List.drop_drop, List.drop_left]
        rfl
      have hn :
        (sscanf (((pre ++ [37, hexDigit (c.toNat / 16), hexDigit (c.toNat % 16)] ++
        encodeURI post).drop
          (pre.length + 1)).take 2)).or ii = some c.toNat := by
        rw [hpart, sscanf_hexDigit, Option.some_or]
      have hrest := ih (some c.toNat)
      rw [@List.length_append _ pre, show ∀ a b c : UInt8, [a, b, c].length = 3 from fun _ _ _ =>
        rfl] at hrest
      rw [decodeLoop_mark (by simp) (by simp) (by simp) (by omega) hn, hrest, UInt8.ofNat_toNat]
      rfl

/-! ### Decoding without faults -/

/-- What is decoded without a fault does not depend on the variable. -/
theorem decodeFrom_of_ok (i : ℕ) (ii : Option ℕ) {k : ℕ} (hk : ∀ n, ii = some n → n = k)
    {t : BString}
    (ht : decodeLoop s s.length i ii = .ok t) : decodeFrom sscanf 0 k (s.drop i) = t := by
  by_cases h : i < s.length
  · have hdrop : s.drop i = s[i] :: s.drop (i + 1) := List.drop_eq_getElem_cons h
    have hc : s[i]? = some s[i] := List.getElem?_eq_getElem h
    by_cases hmark : s[i] = 37
    · rw [hmark] at hc hdrop
      obtain ⟨htwo, hint, hsome⟩ := of_decodeLoop_mark h hc ht
      obtain ⟨n, hn⟩ := Option.isSome_iff_exists.mp hsome
      rw [decodeLoop_mark h hc htwo hint hn] at ht
      obtain ⟨u, hu, rfl⟩ := exists_of_map_ok ht
      have hget : (sscanf ((s.drop (i + 1)).take 2)).getD k = n := by
        cases hs : sscanf ((s.drop (i + 1)).take 2) with
        | none =>
          rw [hs, Option.none_or] at hn
          exact (hk n hn).symm
        | some m => simpa [hs] using hn
      have hrest := decodeFrom_of_ok (i + 3) (some n) (k := n)
        (fun m hm => (Option.some.inj hm).symm) hu
      have htwo' : s.drop (i + 1) = s[i + 1] :: s[i + 2] :: s.drop (i + 3) := by
        rw [List.drop_eq_getElem_cons (by omega), List.drop_eq_getElem_cons (by omega)]
      rw [hdrop, decodeFrom, if_neg (not_not.mpr rfl)]
      simp only [hget]
      rw [htwo', decodeFrom, decodeFrom, hrest]
    · rw [decodeLoop_byte h hc hmark] at ht
      obtain ⟨u, hu, rfl⟩ := exists_of_map_ok ht
      rw [hdrop, decodeFrom, if_pos hmark, decodeFrom_of_ok (i + 1) ii hk hu]
  · rw [decodeLoop_end (Nat.not_lt.mp h)] at ht
    rw [List.drop_eq_nil_of_le (Nat.not_lt.mp h)]
    simpa [decodeFrom] using ht
termination_by s.length - i

/-- A short text that is decoded without a fault is decoded to the same in
every state of the variable. -/
theorem decodeURI_of_ok {t : BString} (hint : s.length < 2 ^ 31)
    (ht : decodeURIChecked s = .ok t) (k : ℕ) :
    decodeURI sscanf k s = t := by
  unfold decodeURIChecked at ht
  rw [intLength_eq hint] at ht
  exact decodeFrom_of_ok 0 none nofun ht

/-- What was encoded comes back where its length is an `int`. -/
theorem decodeURIChecked_encodeURI (hint : (encodeURI s).length < 2 ^ 31) :
    decodeURIChecked (encodeURI s) = .ok s := by
  have h := decodeLoop_encodeURI s [] none hint
  rw [List.nil_append] at h
  unfold decodeURIChecked
  rw [intLength_eq hint]
  exact h

/-- Where it is not, less comes back than was encoded. -/
theorem length_lt_of_decodeURI {t : BString} (hlt : 2 ^ 31 ≤ (encodeURI s).length)
    (ht : decodeURIChecked (encodeURI s) = .ok t) :
    t.length < s.length := by
  have hdecoded := length_decodeLoop (intLength_le _) 0 none ht
  have hlen := length_encodeURI s
  obtain ⟨hint, hzero⟩ := intLength_lt hlt
  omega

/-- **Encoding and decoding.** A text is decoded without a fault if and only if
two bytes follow each of its percent signs and the bytes after the first of
them are read as a number; and what was encoded is decoded to the same text if
and only if the encoded text has a length that is an `int`. -/
theorem decodeURI_exact (s : BString) :
    ((∃ t, decodeURIChecked s = .ok t) ↔ (∀ i ∈ marks s, i + 2 < s.length ∧ i + 3 < 2 ^ 31) ∧
      ∀ i, (marks s).head? = some i → (sscanf ((s.drop (i + 1)).take 2)).isSome) ∧
    (decodeURIChecked (encodeURI s) = .ok s ↔ (encodeURI s).length < 2 ^ 31) := by
  constructor
  · have h := decodeLoop_ok_iff (intLength_le s) 0 none
    unfold Decodable at h
    rwa [← decodeURIChecked, ← marks, imp_iff_right rfl] at h
  · refine ⟨fun hs => ?_, decodeURIChecked_encodeURI⟩
    by_contra hlt
    exact absurd (length_lt_of_decodeURI (Nat.not_lt.mp hlt) hs) (Nat.lt_irrefl _)

/-- Nothing follows the percent sign of `100%`, and no number that of `%zz`. -/
theorem decodeURI_faults : decodeURIChecked (text "100%") = .error .outside ∧
    decodeURIChecked (text "%zz") = .error .unset := by
  constructor
  · have hlen : (text "100%").intLength = 4 := intLength_eq (by decide)
    unfold decodeURIChecked
    rw [hlen]
    simp [decodeLoop, text, substr, bind, Except.bind]
  · have hlen : (text "%zz").intLength = 3 := intLength_eq (by decide)
    have hnone : sscanf [122, 122] = none := by decide
    unfold decodeURIChecked
    rw [hlen]
    simp [decodeLoop, text, substr, bind, Except.bind, hnone]

end BString

end BeeFish
