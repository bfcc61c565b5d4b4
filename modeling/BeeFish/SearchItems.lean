/-
# The items of a search

A search that is made of keys and values, each encoded, is read as these pairs:
`encodeURI` keeps none of the marks between them, and the key and the value of a
pair end where the next mark is. What comes of a pair is decoded, and `decodeURI`
counts in an `int`. So the map has exactly the keys and values where each of
them, encoded, has a length that is one, and in no other case: a text that is
longer is decoded to less (`items_exact`).

Key definitions: `searchText`.
-/
import Mathlib.Data.List.Nodup
import Mathlib.Data.List.Perm.Subperm
import BeeFish.URLRules

namespace BeeFish

open BString URLGrammar

/-- `k=v`, encoded -/
def pairText (pair : BString × BString) : BString :=
  encodeURI pair.1 ++ text "=" ++ encodeURI pair.2

/-- `k1=v1&k2=v2` -/
def pairsText (pairs : List (BString × BString)) : BString :=
  ((pairs.map pairText).intersperse (text "&")).flatten

/-- `?k1=v1&k2=v2` -/
def searchText (pairs : List (BString × BString)) : BString := text "?" ++ pairsText pairs

/-! ### The characters of the text -/

namespace BString

/-- The marks of a search. -/
def searchMarks : BString := text "=& "

theorem encodeByte_marks {c b : UInt8} (h : b ∈ encodeByte c) : b < 128 ∧ b ∉ searchMarks := by
  have hall : ∀ n : Fin 256, (encodeByte (UInt8.ofNat n)).all
    (fun b => decide (b < 128 ∧ b ∉ searchMarks)) = true := by decide +kernel
  have hbyte := forall_of_all (hall ⟨c.toNat, c.toNat_lt⟩)
  rw [UInt8.ofNat_toNat] at hbyte
  exact hbyte b h

theorem encodeURI_marks {s : BString} {b : UInt8} (h : b ∈ encodeURI s) : b < 128 ∧
    b ∉ searchMarks := by
  obtain ⟨c, -, hb⟩ := List.mem_flatMap.mp h
  exact encodeByte_marks hb

theorem encodeURI_ne_nil {s : BString} (h : s ≠ []) : encodeURI s ≠ [] := by
  obtain ⟨c, s, rfl⟩ := List.exists_cons_of_ne_nil h
  have hpos := (length_encodeByte c).1
  intro hnil
  have hlen := congrArg List.length hnil
  simp only [encodeURI, List.flatMap_cons, List.length_append, List.length_nil] at hlen
  omega

end BString

/-! ### The pairs of the text -/

namespace URLText

theorem others_single {cs : List BString} {s : BString} (hcs : cs = singles s) (b : UInt8) :
    others cs [b] = !decide (b ∈ s) := by
  rw [others, hcs]
  simp [singles]

theorem others_key (b : UInt8) : others keyCharacters [b] = !decide (b ∈ searchMarks) :=
  others_single (by decide : keyCharacters = singles (text "=& ")) b

theorem others_value (b : UInt8) : others valueCharacters [b] = !decide (b ∈ text "& ") :=
  others_single (by decide : valueCharacters = singles (text "& ")) b

theorem others_encodeURI {s : BString} : ∀ c ∈ singles (encodeURI s), others keyCharacters c =
    true ∧ others valueCharacters c = true := by
  intro c hc
  obtain ⟨b, hb, rfl⟩ := List.mem_map.mp hc
  have hmarks := (encodeURI_marks hb).2
  have hsub : ∀ b ∈ text "& ", b ∈ searchMarks := forall_of_all (by decide)
  rw [others_key, others_value, decide_eq_false hmarks, decide_eq_false fun h => hmarks (hsub b h)]
  exact ⟨rfl, rfl⟩

/-- A pair, up to the end or to the mark of the next one. -/
theorem keyValues_pair {pair : BString × BString} (hkey : pair.1 ≠ []) {rest : List BString}
    (hrest : rest = [] ∨ rest.head? = some (text "&")) :
    keyValues (singles (pairText pair) ++ rest) =
      ((encodeURI pair.1, encodeURI pair.2) :: (keyValues (skip (text "&") rest)).1,
        (keyValues (skip (text "&") rest)).2) := by
  have hmark : singles (text "=") = [text "="] := by decide
  rw [pairText, singles_append, singles_append, hmark, List.append_assoc, List.append_assoc,
    List.singleton_append]
  obtain ⟨htake, hdrop⟩ := URL.takeWhile_stop (p := others keyCharacters)
    (s := singles (encodeURI pair.1))
    (t := text "=" :: (singles (encodeURI pair.2) ++ rest)) (fun c hc => (others_encodeURI c hc).1)
    (fun c hc => by rw [← Option.some.inj hc]; decide)
  obtain ⟨htake', hdrop'⟩ := URL.takeWhile_stop (p := others valueCharacters)
    (s := singles (encodeURI pair.2)) (t := rest)
    (fun c hc => (others_encodeURI c hc).2) (fun c hc => by
      rcases hrest with rfl | hrest
      · cases hc
      · rw [← Option.some.inj (hrest.symm.trans hc)]
        decide)
  have hne : singles (encodeURI pair.1) ≠ [] :=
    fun h => encodeURI_ne_nil hkey (List.map_eq_nil_iff.mp h)
  have hskip :
      skip (text "=") (text "=" :: (singles (encodeURI pair.2) ++ rest)) =
        singles (encodeURI pair.2) ++ rest := if_pos rfl
  rw [keyValues_cons (by rw [htake]; exact hne), afterPair, valueOf, htake, hdrop, hskip, htake',
    hdrop', flatten_singles, flatten_singles]

theorem pairsText_single (pair : BString × BString) : pairsText [pair] = pairText pair := by
  simp [pairsText]

theorem pairsText_cons (pair next : BString × BString) (pairs : List (BString × BString)) :
    pairsText (pair :: next :: pairs) = pairText pair ++
      (text "&" ++ pairsText (next :: pairs)) := by
  simp [pairsText]

/-- The pairs of a search are those that it is made of. -/
theorem keyValues_pairsText : ∀ {pairs : List (BString × BString)}, (∀ pair ∈ pairs, pair.1 ≠ []) →
    (keyValues (singles (pairsText pairs))).1 = pairs.map fun pair =>
      (encodeURI pair.1, encodeURI pair.2)
  | [], _ => by
    rw [keyValues_none rfl]
    rfl
  | [pair], h => by
    have hpair : keyValues (singles (pairText pair) ++ []) = _ :=
      keyValues_pair (h pair List.mem_cons_self) (Or.inl rfl)
    rw [pairsText_single, ← List.append_nil (singles (pairText pair)), hpair,
      show skip (text "&") [] = [] from rfl, keyValues_none rfl]
    rfl
  | pair :: next :: pairs, h => by
    have ih := keyValues_pairsText fun p hp => h p (List.mem_cons_of_mem pair hp)
    have htext :
        singles (pairsText (pair :: next :: pairs)) =
          singles (pairText pair) ++ text "&" :: singles (pairsText (next :: pairs)) := by
      have hmark : singles (text "&") = [text "&"] := by decide
      rw [pairsText_cons, singles_append, singles_append, hmark, List.singleton_append]
    have hskip :
        skip (text "&") (text "&" :: singles (pairsText (next :: pairs))) =
          singles (pairsText (next :: pairs)) := if_pos rfl
    rw [htext, keyValues_pair (h pair List.mem_cons_self) (Or.inr rfl), hskip, ih]
    rfl

theorem pairText_ascii (pair : BString × BString) : ∀ b ∈ pairText pair, b < 128 := by
  intro b hb
  rcases List.mem_append.mp hb with hb | hb
  · rcases List.mem_append.mp hb with hb | hb
    · exact (encodeURI_marks hb).1
    · exact (forall_of_all (by decide) : ∀ b ∈ text "=", b < 128) b hb
  · exact (encodeURI_marks hb).1

theorem pairsText_ascii : ∀ (pairs : List (BString × BString)), ∀ b ∈ pairsText pairs, b < 128
  | [], _, h => nomatch h
  | [pair], b, h => by
    rw [pairsText_single] at h
    exact pairText_ascii pair b h
  | pair :: next :: pairs, b, h => by
    rw [pairsText_cons] at h
    rcases List.mem_append.mp h with h | h
    · exact pairText_ascii pair b h
    · rcases List.mem_append.mp h with h | h
      · exact (forall_of_all (by decide) : ∀ b ∈ text "&", b < 128) b h
      · exact pairsText_ascii (next :: pairs) b h

/-- The items of a search that is made of pairs. -/
theorem read_searchText {lower : BString → BString} (hl : Lowers lower)
    {pairs : List (BString × BString)}
    (hkeys : ∀ pair ∈ pairs, pair.1 ≠ []) :
    (URLText.read lower (Parser.characters (searchText pairs))).items =
      itemsOf (pairs.map fun pair => (encodeURI pair.1, encodeURI pair.2)) := by
  have hmark : singles (text "?") = [text "?"] := by decide
  have hascii : ∀ b ∈ searchText pairs, b < 128 := by
    intro b hb
    rcases List.mem_append.mp hb with hb | hb
    · exact (forall_of_all (by decide) : ∀ b ∈ text "?", b < 128) b hb
    · exact pairsText_ascii pairs b hb
  have hlower : lower (text "?") = text "?" := by
    rw [hl.ascii _ (forall_of_all (by decide))]
    decide
  have hcommon : Match.common lower (text "https") (text "?" :: singles (pairsText pairs)) = 0 := by
    rw [show text "https" = 104 :: text "ttps" by decide, Match.common,
      if_neg (by rw [hlower]; decide)]
  rw [characters_singles hascii, searchText, singles_append, hmark, List.singleton_append]
  have hscheme : scheme lower (text "?" :: singles (pairsText pairs)) =
    (none, text "?" :: singles (pairsText pairs)) := by
    rw [scheme, hcommon]
    rfl
  have hdomain : domainOf (text "?" :: singles (pairsText pairs)) =
    (none, none, text "?" :: singles (pairsText pairs)) := by
    rw [domainOf, List.takeWhile_cons_of_neg (by decide)]
    rfl
  have hsearch :
    searchOf ((text "?" :: singles (pairsText pairs)).dropWhile (others pathCharacters)) =
      (text "?" ++ Match.textBefore (keyValues (singles (pairsText pairs))).2
        (singles (pairsText pairs)), (keyValues (singles (pairsText pairs))).1) := by
    rw [List.dropWhile_cons_of_neg (by decide)]
    exact if_pos rfl
  rw [URLText.read, hscheme]
  simp only [hdomain, hsearch]
  rw [keyValues_pairsText hkeys]

/-! ### The map -/

/-- A pair and what it is decoded to. -/
def Decodes (pair item : BString × BString) : Prop :=
  pair.1.decodeURIChecked = .ok item.1 ∧ pair.2.decodeURIChecked = .ok item.2

/-- The map with more items set. -/
def setItems (f : BString → Option BString) (items : List (BString × BString)) : BString →
    Option BString :=
  items.foldl (fun f item => Function.update f item.1 (some item.2)) f

theorem items_bind (items : Except Fault (BString → Option BString))
    (key value : Except Fault BString) :
    (do let items ← items
        let key ← key
        let value ← value
        return Function.update items key (some value)) =
      items.bind fun f => key.bind fun key => value.bind fun value =>
        .ok (Function.update f key (some value)) :=
  rfl

/-- The decoding of a pair, with the loop of `decodeURI` folded. -/
theorem matchedItem_eq (key value : BString) (items : Except Fault (BString → Option BString)) :
    URLObject.matchedItem key value items =
    items.bind fun f => key.decodeURIChecked.bind fun key =>
      value.decodeURIChecked.bind fun value =>
      .ok (Function.update f key (some value)) :=
  items_bind items key.decodeURIChecked value.decodeURIChecked

theorem foldl_matchedItem_error (e : Fault) : ∀ pairs : List (BString × BString),
    pairs.foldl (fun items pair => URLObject.matchedItem pair.1 pair.2 items) (.error e) = .error e
  | [] => rfl
  | pair :: pairs => by
    rw [List.foldl_cons, matchedItem_eq]
    exact foldl_matchedItem_error e pairs

theorem matchedItem_ok {pair item : BString × BString} (h : Decodes pair item)
    (f : BString → Option BString) :
    URLObject.matchedItem pair.1 pair.2 (.ok f) = .ok (Function.update f item.1 (some item.2)) := by
  rw [matchedItem_eq, h.1, h.2]
  rfl

theorem matchedItem_error {pair : BString × BString} (h : ∀ item, ¬ Decodes pair item)
    (f : BString → Option BString) :
    ∃ e, URLObject.matchedItem pair.1 pair.2 (.ok f) = .error e := by
  rw [matchedItem_eq]
  cases hkey : pair.1.decodeURIChecked with
  | error e => exact ⟨e, rfl⟩
  | ok key =>
    cases hvalue : pair.2.decodeURIChecked with
    | error e => exact ⟨e, rfl⟩
    | ok value => exact absurd ⟨hkey, hvalue⟩ (h (key, value))

theorem Decodes.unique {pair item item' : BString × BString} (h : Decodes pair item)
    (h' : Decodes pair item') : item = item' :=
  Prod.ext (Except.ok.inj (h.1.symm.trans h'.1)) (Except.ok.inj (h.2.symm.trans h'.2))

/-- The pairs are set one after another, where all of them are decoded. -/
theorem foldl_matchedItem {pairs : List (BString × BString)} : ∀ {f g : BString → Option BString},
    pairs.foldl (fun items pair => URLObject.matchedItem pair.1 pair.2 items) (.ok f) = .ok g ↔
      ∃ items, List.Forall₂ Decodes pairs items ∧ g = setItems f items := by
  induction pairs with
  | nil =>
    intro f g
    simp only [List.foldl_nil, List.forall₂_nil_left_iff, exists_eq_left, Except.ok.injEq]
    exact eq_comm
  | cons pair pairs ih =>
    intro f g
    rw [List.foldl_cons]
    by_cases h : ∃ item, Decodes pair item
    · obtain ⟨item, hitem⟩ := h
      rw [matchedItem_ok hitem, ih]
      constructor
      · rintro ⟨items, hitems, rfl⟩
        exact ⟨item :: items, .cons hitem hitems, rfl⟩
      · rintro ⟨_, h | ⟨hitem', hitems⟩, rfl⟩
        rw [hitem'.unique hitem]
        exact ⟨_, hitems, rfl⟩
    · obtain ⟨e, hstep⟩ := matchedItem_error (not_exists.mp h) f
      rw [hstep, foldl_matchedItem_error]
      refine ⟨nofun, ?_⟩
      rintro ⟨_, h' | ⟨hitem, -⟩, -⟩
      exact absurd ⟨_, hitem⟩ h

/-- What is in the map has been set. -/
theorem mem_of_setItems {key value : BString} :
    ∀ {items : List (BString × BString)} {f : BString → Option BString},
    setItems f items key = some value → (key, value) ∈ items ∨ f key = some value
  | [], _, h => Or.inr h
  | item :: items, f, h => by
    have hset : setItems (Function.update f item.1 (some item.2)) items key = some value := h
    rcases mem_of_setItems hset with h | h
    · exact Or.inl (List.mem_cons_of_mem item h)
    · by_cases hk : key = item.1
      · subst hk
        rw [Function.update_self] at h
        rw [← Option.some.inj h]
        exact Or.inl List.mem_cons_self
      · rw [Function.update_of_ne hk] at h
        exact Or.inr h

/-- Items with different keys. -/
theorem setItems_eq : ∀ {items : List (BString × BString)}, (items.map Prod.fst).Nodup →
    ∀ (f : BString → Option BString) (key : BString),
    setItems f items key = (items.lookup key).or (f key)
  | [], _, _, _ => rfl
  | item :: items, h, f, key => by
    obtain ⟨hnot, hrest⟩ := List.nodup_cons.mp h
    have ih := setItems_eq hrest (Function.update f item.1 (some item.2)) key
    rw [show setItems f (item :: items) key = setItems (Function.update f item.1 (some item.2))
      items key from rfl, ih, List.lookup_cons]
    by_cases hk : key = item.1
    · subst hk
      have hnone : items.lookup item.1 = none := by
        rw [List.lookup_eq_none_iff]
        intro p hp
        simpa using fun he => hnot (List.mem_map.mpr ⟨p, hp, he.symm⟩)
      rw [hnone, Function.update_self, beq_self_eq_true]
      rfl
    · rw [Function.update_of_ne hk, beq_false_of_ne hk]

/-! ### Lengths -/

/-- Weights that are no more one by one are the same where their sums are. -/
theorem forall_of_sum {α β : Type} {R : α → β → Prop} {Q : α → Prop} {f : α → ℕ} {g : β → ℕ}
    (hle : ∀ a b, R a b → g b ≤ f a)
    (heq : ∀ a b, R a b → g b = f a → Q a) {as : List α} {bs : List β} (h : List.Forall₂ R as bs) :
    (bs.map g).sum ≤ (as.map f).sum ∧ ((bs.map g).sum = (as.map f).sum → ∀ a ∈ as, Q a) := by
  induction h with
  | nil => exact ⟨Nat.le_refl _, nofun⟩
  | @cons a b as bs hab _ ih =>
    obtain ⟨hsum, hall⟩ := ih
    have hhead := hle a b hab
    simp only [List.map_cons, List.sum_cons, List.forall_mem_cons]
    exact ⟨by omega, fun h => ⟨heq a b hab (by omega), hall (by omega)⟩⟩

/-- The weight of a pair. -/
def bytesOf (pair : BString × BString) : ℕ := pair.1.length + pair.2.length

/-- Both parts of a pair, encoded, have a length that is an `int`. -/
def FitsInt (pair : BString × BString) : Prop :=
  (encodeURI pair.1).length < 2 ^ 31 ∧ (encodeURI pair.2).length < 2 ^ 31

/-- What is decoded is no longer, and as long only where it comes back. -/
theorem Decodes.bytesOf {pair item : BString × BString}
    (h : Decodes (encodeURI pair.1, encodeURI pair.2) item) :
    bytesOf item ≤ bytesOf pair ∧ (bytesOf item = bytesOf pair → FitsInt pair) := by
  have hpart : ∀ {s t : BString}, decodeURIChecked (encodeURI s) = .ok t →
      t.length ≤ s.length ∧ (t.length = s.length → (encodeURI s).length < 2 ^ 31) := by
    intro s t ht
    by_cases hint : (encodeURI s).length < 2 ^ 31
    · rw [decodeURIChecked_encodeURI hint] at ht
      obtain rfl := Except.ok.inj ht
      exact ⟨Nat.le_refl _, fun _ => hint⟩
    · have hlt := length_lt_of_decodeURI (Nat.not_lt.mp hint) ht
      exact ⟨Nat.le_of_lt hlt, fun heq => absurd heq (Nat.ne_of_lt hlt)⟩
  obtain ⟨hkey, hkey'⟩ := hpart h.1
  obtain ⟨hvalue, hvalue'⟩ := hpart h.2
  unfold URLText.bytesOf
  exact ⟨by omega, fun heq => ⟨hkey' (by omega), hvalue' (by omega)⟩⟩

section

variable {pairs : List (BString × BString)}

theorem lookup_eq_some (hnodup : (pairs.map Prod.fst).Nodup) {pair : BString × BString}
    (h : pair ∈ pairs) :
    pairs.lookup pair.1 = some pair.2 := by
  induction pairs with
  | nil => cases h
  | cons first pairs ih =>
    obtain ⟨hnot, hrest⟩ := List.nodup_cons.mp hnodup
    rw [List.lookup_cons]
    rcases List.mem_cons.mp h with rfl | h
    · rw [beq_self_eq_true]
    · have hne : pair.1 ≠ first.1 := fun heq => hnot (heq ▸ List.mem_map_of_mem h)
      rw [beq_false_of_ne hne]
      exact ih hrest h

/-- A map with exactly the pairs leaves no pair that does not come back. -/
theorem fitsInt_of_items (hnodup : (pairs.map Prod.fst).Nodup)
    (h : itemsOf (pairs.map fun pair => (encodeURI pair.1, encodeURI pair.2)) = .ok fun key =>
      pairs.lookup key) :
    ∀ pair ∈ pairs, FitsInt pair := by
  obtain ⟨items, hitems, hmap⟩ := foldl_matchedItem.mp h
  rw [List.forall₂_map_left_iff] at hitems
  -- every pair has been set, so the items are the pairs in some order
  have hsub : pairs ⊆ items := by
    intro pair hpair
    have hset : setItems (fun _ => none) items pair.1 = some pair.2 := by
      rw [← hmap]
      exact lookup_eq_some hnodup hpair
    exact (mem_of_setItems hset).resolve_right nofun
  have hperm : pairs.Perm items :=
    (List.subperm_of_subset (List.Nodup.of_map _ hnodup) hsub).perm_of_length_le hitems.length_eq.ge
  have hsum : (items.map bytesOf).sum = (pairs.map bytesOf).sum := (hperm.map bytesOf).sum_nat.symm
  exact (forall_of_sum (fun _ _ hd => hd.bytesOf.1) (fun _ _ hd => hd.bytesOf.2) hitems).2 hsum

theorem items_of_fitsInt (hnodup : (pairs.map Prod.fst).Nodup) (h : ∀ pair ∈ pairs, FitsInt pair) :
    itemsOf (pairs.map fun pair => (encodeURI pair.1, encodeURI pair.2)) = .ok fun key =>
      pairs.lookup key := by
  refine foldl_matchedItem.mpr ⟨pairs, ?_, ?_⟩
  · rw [List.forall₂_map_left_iff, List.forall₂_same]
    exact fun pair hpair => ⟨decodeURIChecked_encodeURI (h pair hpair).1, decodeURIChecked_encodeURI
      (h pair hpair).2⟩
  · funext key
    rw [setItems_eq hnodup, Option.or_none]

end

end URLText

open URLText

section

variable {lower : BString → BString} {pairs : List (BString × BString)}

/-- The items of a URL are those of its search. -/
theorem parse_items_iff (hl : Lowers lower) (hkeys : ∀ pair ∈ pairs, pair.1 ≠ []) :
    (∃ n, ∀ fuel, n ≤ fuel → ∃ url, URLParts.parse lower fuel (searchText pairs) = .ok url ∧
      url.items = .ok fun key => pairs.lookup key) ↔
      itemsOf (pairs.map fun pair => (encodeURI pair.1, encodeURI pair.2)) = .ok fun key =>
        pairs.lookup key := by
  rw [← read_searchText hl hkeys]
  exact parse_iff hl _ fun url => url.items = .ok fun key => pairs.lookup key

/-- **The items of a search are its pairs**, where the keys are not empty and
different, if and only if each key and each value has a length, encoded, that is
an `int`. -/
theorem items_exact (hl : Lowers lower) (hkeys : ∀ pair ∈ pairs, pair.1 ≠ [])
    (hnodup : (pairs.map Prod.fst).Nodup) :
    (∃ n, ∀ fuel, n ≤ fuel → ∃ url, URLParts.parse lower fuel (searchText pairs) = .ok url ∧
      url.items = .ok fun key => pairs.lookup key) ↔
      ∀ pair ∈ pairs, (encodeURI pair.1).length < 2 ^ 31 ∧ (encodeURI pair.2).length < 2 ^ 31 := by
  rw [parse_items_iff hl hkeys]
  exact ⟨fitsInt_of_items hnodup, items_of_fitsInt hnodup⟩

end

/-- `?k=v&m=` -/
theorem items_exact_kv : ∃ n, ∀ fuel, n ≤ fuel → ∃ url,
    URLParts.parse (List.map lowerByte) fuel (searchText [(text "k", text "v"), (text "m", [])]) =
      .ok url ∧
      url.items = .ok fun key => [(text "k", text "v"), (text "m", [])].lookup key :=
  (items_exact lowers_map (by decide) (by decide)).mpr (by decide)

theorem encodeURI_replicate (n : ℕ) : encodeURI (List.replicate n 97) = List.replicate n 97 := by
  induction n with
  | zero => rfl
  | succ n ih =>
    rw [List.replicate_succ]
    exact congrArg (97 :: ·) ih

/-- A value of two gibibytes is decoded to nothing. -/
theorem items_lost : ¬ ∀ pairs : List (BString × BString), (∀ pair ∈ pairs, pair.1 ≠ []) →
    (pairs.map Prod.fst).Nodup →
    ∃ n, ∀ fuel, n ≤ fuel → ∃ url, URLParts.parse (List.map lowerByte) fuel
      (searchText pairs) = .ok url ∧
      url.items = .ok fun key => pairs.lookup key := by
  intro h
  have hkeys : ∀ v, ∀ pair ∈ [(text "k", v)], (pair : BString × BString).1 ≠ [] :=
    fun v pair hp => by
    rw [List.mem_singleton.mp hp]
    exact List.cons_ne_nil 107 []
  have hnodup : ∀ v, ([(text "k", v)].map (Prod.fst : BString × BString → BString)).Nodup :=
    fun v => List.nodup_singleton _
  have hlong : ∀ k, 2 ^ 31 ≤ k → False := by
    intro k hk
    have hread := (parse_items_iff lowers_map (hkeys (List.replicate k 97))).mp
      (h _ (hkeys _) (hnodup _))
    have hfits := (fitsInt_of_items (hnodup _) hread _ List.mem_cons_self).2
    rw [encodeURI_replicate, List.length_replicate] at hfits
    omega
  exact hlong (2 ^ 31) (Nat.le_refl _)

end BeeFish
