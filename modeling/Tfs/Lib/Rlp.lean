import Tfs.Basic

/-! Hexadecimal text and recursive-length-prefix items.

    `toHex` and `fromHex` are inverse on bytes. An RLP item is a byte string or a list of items; a
    codec writes items as bytes and reads them back, and is lawful when reading undoes writing on
    the items that occur: strings, and lists of strings. -/

namespace Tfs.Rlp

/-! ### Hexadecimal text -/

/-- The digit of a number below 16. -/
def hexDigit (n : UInt8) : UInt8 := if n < 10 then 48 + n else 87 + n

/-- The number of a digit, of either case. -/
def fromHexChar (c : UInt8) : Option UInt8 :=
  if 48 ≤ c ∧ c ≤ 57 then some (c - 48)
  else if 97 ≤ c ∧ c ≤ 102 then some (c - 87)
  else if 65 ≤ c ∧ c ≤ 70 then some (c - 55)
  else none

/-- The text of some bytes: two digits each, the high one first. -/
def toHex : Str → Str
  | [] => []
  | b :: rest => hexDigit (b / 16) :: hexDigit (b % 16) :: toHex rest

/-- The bytes of an even number of digits. -/
def fromHexPairs : Str → Option Str
  | h :: l :: rest => do
    let hi ← fromHexChar h
    let lo ← fromHexChar l
    let more ← fromHexPairs rest
    some ((hi * 16 + lo) :: more)
  | _ => some []

/-- The characters behind a leading `0x`, if there is one. -/
def skipPrefix : Str → Str
  | 48 :: 120 :: rest => rest
  | s => s

/-- The bytes of a text: a leading `0x` is skipped, an odd first digit stands alone, and a character that
    is no digit makes the result empty. -/
def fromHex (s : Str) : Str :=
  if s.length % 2 = 1 then
    match skipPrefix s with
    | [] => []
    | c :: rest =>
      match fromHexChar c, fromHexPairs rest with
      | some d, some more => d :: more
      | _, _ => []
  else (fromHexPairs (skipPrefix s)).getD []

theorem fromHexChar_hexDigit : ∀ b : UInt8, fromHexChar (hexDigit (b / 16)) = some (b / 16) ∧
    fromHexChar (hexDigit (b % 16)) = some (b % 16) ∧ b / 16 * 16 + b % 16 = b ∧
    hexDigit (b % 16) ≠ 120 := by
  intro b
  have h : ∀ n : Fin 256, let b := UInt8.ofNat n
      fromHexChar (hexDigit (b / 16)) = some (b / 16) ∧
      fromHexChar (hexDigit (b % 16)) = some (b % 16) ∧ b / 16 * 16 + b % 16 = b ∧
      hexDigit (b % 16) ≠ 120 := by decide +kernel
  have hb := h ⟨b.toNat, b.toNat_lt⟩
  simpa using hb

theorem toHex_length (b : Str) : (toHex b).length = 2 * b.length := by
  induction b with
  | nil => rfl
  | cons x rest ih => simp only [toHex, List.length_cons, ih]; ring

theorem fromHexPairs_toHex (b : Str) : fromHexPairs (toHex b) = some b := by
  induction b with
  | nil => rfl
  | cons x rest ih =>
    obtain ⟨hhi, hlo, hsum, -⟩ := fromHexChar_hexDigit x
    simp [toHex, fromHexPairs, hhi, hlo, ih, hsum]

/-- Reading hexadecimal text undoes writing it. -/
theorem fromHex_toHex (b : Str) : fromHex (toHex b) = b := by
  have heven : (toHex b).length % 2 ≠ 1 := by rw [toHex_length]; omega
  have hbody : skipPrefix (toHex b) = toHex b := by
    cases b with
    | nil => rfl
    | cons x rest =>
      simp only [toHex]
      rw [skipPrefix.eq_2]
      intro more h
      simp only [List.cons.injEq] at h
      exact (fromHexChar_hexDigit x).2.2.2 h.2.1
  rw [fromHex, if_neg heven, hbody, fromHexPairs_toHex, Option.getD_some]

theorem toHex_injective : Function.Injective toHex := fun a b h => by
  rw [← fromHex_toHex a, h, fromHex_toHex]

/-! ### Items and codecs -/

/-- An RLP item: a byte string, or a list of `n` items. -/
inductive Item where
  | data (bytes : Str)
  | list (n : ℕ) (items : Fin n → Item)

/-- The string of an item, empty for a list. -/
def Item.toStr : Item → Str
  | .data bytes => bytes
  | .list _ _ => []

/-- A codec for items: `out` writes an item, `parse` reads a whole string as one item (`none` where
    the reader throws) and `item0` reads the item at the start of a payload. -/
structure Codec where
  out : Item → Str
  parse : Str → Option Item
  item0 : Str → Item

/-- What is relied on: reading undoes writing for strings and for lists of strings, written items are
    not empty, and a string of 64 bytes takes 66. -/
structure Codec.Lawful (c : Codec) : Prop where
  parse_data : ∀ b, c.parse (c.out (.data b)) = some (.data b)
  parse_list : ∀ (n : ℕ) (f : Fin n → Str), c.parse (c.out (.list n fun i => .data (f i)))
    = some (.list n fun i => .data (f i))
  item0_data : ∀ b, c.item0 (c.out (.data b)) = .data b
  out_ne_nil : ∀ r, c.out r ≠ []
  out_length : ∀ b, b.length = 64 → (c.out (.data b)).length = 66

namespace Codec.Lawful

variable {c : Codec}

theorem data_inj (hc : c.Lawful) {a b : Str} (h : c.out (.data a) = c.out (.data b)) : a = b := by
  have := hc.parse_data a
  rw [h, hc.parse_data] at this
  cases this
  rfl

theorem data_ne_list (hc : c.Lawful) {a : Str} {n : ℕ} {f : Fin n → Str} :
    c.out (.data a) ≠ c.out (.list n fun i => .data (f i)) := by
  intro h
  have := hc.parse_data a
  rw [h, hc.parse_list] at this
  cases this

theorem list_inj (hc : c.Lawful) {n : ℕ} {f g : Fin n → Str}
    (h : c.out (.list n fun i => .data (f i)) = c.out (.list n fun i => .data (g i))) : f = g := by
  have := hc.parse_list n f
  rw [h, hc.parse_list] at this
  simp only [Option.some.injEq, Item.list.injEq, heq_eq_eq, true_and] at this
  funext i
  simpa using (congrFun this i).symm

theorem list_length_inj (hc : c.Lawful) {n m : ℕ} {f : Fin n → Str} {g : Fin m → Str}
    (h : c.out (.list n fun i => .data (f i)) = c.out (.list m fun i => .data (g i))) : n = m := by
  have := hc.parse_list n f
  rw [h, hc.parse_list] at this
  simp only [Option.some.injEq, Item.list.injEq] at this
  exact this.1.symm

end Codec.Lawful

/-! ### The recursive-length-prefix codec -/

/-- The least number of bytes a length takes, for lengths below `256 ^ fuel`. -/
def bytesRequired : ℕ → ℕ → ℕ
  | 0, _ => 0
  | fuel + 1, n => if n = 0 then 0 else bytesRequired fuel (n / 256) + 1

/-- Big-endian bytes of fixed number. -/
def toBytes : ℕ → ℕ → Str
  | 0, _ => []
  | w + 1, n => toBytes w (n / 256) ++ [UInt8.ofNat (n % 256)]

def fromBytes (s : Str) : ℕ := s.foldl (fun acc b => 256 * acc + b.toNat) 0

/-- The length of the run of ones at the front, and what follows the zero behind it. -/
def readUnary : Str → Option (ℕ × Str)
  | [] => none
  | b :: rest => if b = 1 then (readUnary rest).map fun r => (r.1 + 1, r.2) else some (0, rest)

/-- The prefix of a string (`base` = `0x80`) or list (`0xc0`) of `n` bytes. No string reaches
    `2 ^ 64` bytes; the last branch only makes the codec total. -/
def lengthPrefix (base n : ℕ) : Str :=
  if n < 56 then [UInt8.ofNat (base + n)]
  else if n < 2 ^ 64 then
    UInt8.ofNat (base + 55 + bytesRequired 8 n) :: toBytes (bytesRequired 8 n) n
  else UInt8.ofNat (base + 63) :: List.replicate 8 0 ++ List.replicate n 1 ++ [0]

/-- The length behind a prefix byte that is `q` above its base. -/
def readLength (q : ℕ) (rest : Str) : Option (ℕ × Str) :=
  if q < 56 then some (q, rest)
  else if rest.length < q - 55 then none
  else if fromBytes (rest.take (q - 55)) = 0 then readUnary (rest.drop (q - 55))
  else some (fromBytes (rest.take (q - 55)), rest.drop (q - 55))

/-- A string as an item: one byte below `0x80` stands for itself. -/
def outData (b : Str) : Str :=
  if b.length = 1 ∧ b.headD 0 < 128 then b else lengthPrefix 128 b.length ++ b

/-- An item in bytes. -/
def outItem : Item → Str
  | .data b => outData b
  | .list n items =>
    let payload := (List.ofFn fun i : Fin n => outItem (items i)).flatten
    lengthPrefix 192 payload.length ++ payload

/-- The first item of a string: whether it is a list, its payload, and the rest. -/
def splitItem : Str → Option (Bool × Str × Str)
  | [] => none
  | p :: rest =>
    if p < 128 then some (false, [p], rest)
    else do
      let r ← readLength (p.toNat - if p < 192 then 128 else 192) rest
      if r.2.length < r.1 then none
      else some (!decide (p < 192), r.2.take r.1, r.2.drop r.1)

/-- The items of a payload. -/
def parseItems : ℕ → Str → Option (List Item)
  | 0, _ => none
  | _ + 1, [] => some []
  | fuel + 1, b :: s => do
    let r ← splitItem (b :: s)
    let item ← if r.1 then (parseItems fuel r.2.1).map fun l => Item.list l.length l.get
      else some (.data r.2.1)
    let items ← parseItems fuel r.2.2
    some (item :: items)

/-- The recursive-length-prefix codec. -/
def rlp : Codec where
  out := outItem
  parse s := match parseItems (s.length + 2) s with
    | some [item] => some item
    | _ => none
  item0 s := match splitItem s with
    | some (false, payload, _) => .data payload
    | some (true, payload, _) =>
      ((parseItems (payload.length + 2) payload).map fun l => Item.list l.length l.get).getD (.data [])
    | none => .data []

theorem toBytes_length (w n : ℕ) : (toBytes w n).length = w := by
  induction w generalizing n with
  | zero => rfl
  | succ w ih => simp [toBytes, ih]

theorem fromBytes_toBytes (w n : ℕ) (h : n < 256 ^ w) : fromBytes (toBytes w n) = n := by
  induction w generalizing n with
  | zero => simp at h; simp [toBytes, fromBytes, h]
  | succ w ih =>
    have hdiv : n / 256 < 256 ^ w := by rw [Nat.div_lt_iff_lt_mul (by norm_num)]; rwa [pow_succ] at h
    have hrec := ih (n / 256) hdiv
    rw [fromBytes] at hrec
    rw [toBytes, fromBytes, List.foldl_append, hrec]
    simp only [List.foldl_cons, List.foldl_nil, UInt8.toNat_ofNat']
    omega

theorem bytesRequired_le (fuel n : ℕ) : bytesRequired fuel n ≤ fuel := by
  induction fuel generalizing n with
  | zero => rfl
  | succ fuel ih =>
    rw [bytesRequired]
    have := ih (n / 256)
    split_ifs <;> omega

theorem lt_pow_bytesRequired (fuel n : ℕ) (h : n < 256 ^ fuel) : n < 256 ^ bytesRequired fuel n := by
  induction fuel generalizing n with
  | zero => exact h
  | succ fuel ih =>
    rw [bytesRequired]
    split_ifs with hn
    · subst hn; norm_num
    · have hdiv : n / 256 < 256 ^ fuel := by
        rw [Nat.div_lt_iff_lt_mul (by norm_num)]; rwa [pow_succ] at h
      have := ih (n / 256) hdiv
      rw [pow_succ]
      omega

theorem readUnary_replicate (n : ℕ) (s : Str) :
    readUnary (List.replicate n 1 ++ 0 :: s) = some (n, s) := by
  induction n with
  | zero => rfl
  | succ n ih => simp [List.replicate_succ, readUnary, ih]

/-- Reading a length prefix: the byte in front lies at most 63 above the base, and the length comes
    back. -/
theorem lengthPrefix_spec (base n : ℕ) : ∃ q t, q ≤ 63 ∧
    lengthPrefix base n = UInt8.ofNat (base + q) :: t ∧
    ∀ body, readLength q (t ++ body) = some (n, body) := by
  unfold lengthPrefix
  split_ifs with h56 h64
  · exact ⟨n, [], by omega, rfl, fun body => by simp [readLength, h56]⟩
  · have hw := bytesRequired_le 8 n
    have hn := lt_pow_bytesRequired 8 n (by norm_num at h64 ⊢; exact h64)
    have hw1 : 1 ≤ bytesRequired 8 n := by
      rw [bytesRequired, if_neg (by omega)]; omega
    refine ⟨55 + bytesRequired 8 n, _, by omega, by rw [add_assoc], fun body => ?_⟩
    have hlen : (toBytes (bytesRequired 8 n) n).length = bytesRequired 8 n := toBytes_length _ _
    rw [readLength, if_neg (by omega), if_neg (by rw [List.length_append, hlen]; omega),
      Nat.add_sub_cancel_left, List.take_left' hlen, fromBytes_toBytes _ _ hn, if_neg (by omega),
      List.drop_left' hlen]
  · refine ⟨63, List.replicate 8 0 ++ List.replicate n 1 ++ [0], le_refl _, by simp,
      fun body => ?_⟩
    rw [readLength, if_neg (by omega), if_neg (by simp), List.append_assoc, List.append_assoc,
      List.take_left' (by simp), if_pos (by decide), List.drop_left' (by simp)]
    exact readUnary_replicate n body

theorem ofNat_lt_iff {n : ℕ} (hn : n < 256) (b : UInt8) : UInt8.ofNat n < b ↔ n < b.toNat := by
  rw [UInt8.lt_iff_toNat_lt, UInt8.toNat_ofNat_of_lt' hn]

theorem splitItem_data (b rest : Str) : splitItem (outData b ++ rest) = some (false, b, rest) := by
  unfold outData
  split_ifs with h1
  · obtain ⟨hlen, hlt⟩ := h1
    obtain ⟨x, rfl⟩ := List.length_eq_one_iff.mp hlen
    simp only [List.headD_cons] at hlt
    simp [splitItem, hlt]
  · obtain ⟨q, t, hq, hpre, hread⟩ := lengthPrefix_spec 128 b.length
    have hnat : (UInt8.ofNat (128 + q)).toNat = 128 + q :=
      UInt8.toNat_ofNat_of_lt' (show 128 + q < 256 by omega)
    have hge : ¬ UInt8.ofNat (128 + q) < 128 := by
      rw [ofNat_lt_iff (by omega), show (128 : UInt8).toNat = 128 from rfl]; omega
    have hlt : UInt8.ofNat (128 + q) < 192 := by
      rw [ofNat_lt_iff (by omega), show (192 : UInt8).toNat = 192 from rfl]; omega
    rw [hpre, List.cons_append, List.cons_append, splitItem, if_neg hge, if_pos hlt, hnat,
      Nat.add_sub_cancel_left, List.append_assoc, hread, Option.bind_eq_bind, Option.bind_some,
      if_neg (by simp), List.take_left' rfl, List.drop_left' rfl, decide_eq_true hlt]
    rfl

theorem splitItem_list (payload rest : Str) :
    splitItem (lengthPrefix 192 payload.length ++ payload ++ rest) = some (true, payload, rest) := by
  obtain ⟨q, t, hq, hpre, hread⟩ := lengthPrefix_spec 192 payload.length
  have hnat : (UInt8.ofNat (192 + q)).toNat = 192 + q :=
    UInt8.toNat_ofNat_of_lt' (show 192 + q < 256 by omega)
  have hge : ¬ UInt8.ofNat (192 + q) < 128 := by
    rw [ofNat_lt_iff (by omega), show (128 : UInt8).toNat = 128 from rfl]; omega
  have hge' : ¬ UInt8.ofNat (192 + q) < 192 := by
    rw [ofNat_lt_iff (by omega), show (192 : UInt8).toNat = 192 from rfl]; omega
  rw [hpre, List.cons_append, List.cons_append, splitItem, if_neg hge, if_neg hge', hnat,
    Nat.add_sub_cancel_left, List.append_assoc, hread, Option.bind_eq_bind, Option.bind_some,
    if_neg (by simp), List.take_left' rfl, List.drop_left' rfl, decide_eq_false hge']
  rfl

theorem outData_ne_nil (b : Str) : outData b ≠ [] := by
  intro h
  have := splitItem_data b []
  rw [h] at this
  cases this

theorem outItem_ne_nil (r : Item) : outItem r ≠ [] := by
  cases r with
  | data b => exact outData_ne_nil b
  | list n items =>
    intro h
    have := splitItem_list (List.ofFn fun i => outItem (items i)).flatten []
    rw [List.append_nil] at this
    rw [outItem] at h
    rw [h] at this
    cases this

/-- Reading the strings of a payload back. -/
theorem parseItems_data : ∀ (bs : List Str) (fuel : ℕ), bs.length < fuel →
    parseItems fuel (bs.map outData).flatten = some (bs.map Item.data)
  | [], fuel + 1, _ => rfl
  | b :: bs, fuel + 1, h => by
    have hne := outData_ne_nil b
    have hsplit := splitItem_data b (bs.map outData).flatten
    rw [List.map_cons, List.flatten_cons]
    obtain ⟨x, t, hxt⟩ := List.exists_cons_of_ne_nil hne
    rw [hxt, List.cons_append] at hsplit ⊢
    rw [parseItems, hsplit]
    simp only [Option.bind_eq_bind, Option.bind_some, Bool.false_eq_true, if_false]
    rw [parseItems_data bs fuel (by simpa using h)]
    rfl

theorem length_le_flatten : ∀ bs : List Str, bs.length ≤ (bs.map outData).flatten.length
  | [] => le_refl _
  | b :: bs => by
    have := length_le_flatten bs
    have := List.length_pos_of_ne_nil (outData_ne_nil b)
    simp only [List.map_cons, List.flatten_cons, List.length_append, List.length_cons]
    omega

theorem list_get_ofFn {n : ℕ} (f : Fin n → Str) :
    Item.list ((List.ofFn f).map Item.data).length ((List.ofFn f).map Item.data).get
      = .list n fun i => .data (f i) := by
  have hcast : ∀ {a b : ℕ} (h : a = b) (x : Fin a → Item) (y : Fin b → Item),
      (∀ i, x i = y (Fin.cast h i)) → Item.list a x = .list b y := by
    rintro a _ rfl x y hxy
    congr 1
    funext i
    exact hxy i
  refine hcast (by simp) _ _ fun i => ?_
  simp [List.get_eq_getElem, Fin.cast]

/-- The codec is lawful. -/
theorem rlp_lawful : rlp.Lawful where
  parse_data b := by
    have h := parseItems_data [b] ((outData b).length + 2) (by simp)
    simp only [List.map_cons, List.map_nil, List.flatten_cons, List.flatten_nil,
      List.append_nil] at h
    simp only [rlp, outItem, h]
  parse_list n f := by
    have hpay : (List.ofFn fun i => outItem (.data (f i))).flatten
        = ((List.ofFn f).map outData).flatten := by
      rw [List.map_ofFn]; rfl
    simp only [rlp]
    rw [outItem, hpay]
    set payload := ((List.ofFn f).map outData).flatten with hp
    have hsplit := splitItem_list payload []
    rw [List.append_nil] at hsplit
    obtain ⟨q, t, -, hpre, -⟩ := lengthPrefix_spec 192 payload.length
    have hitems : parseItems ((lengthPrefix 192 payload.length ++ payload).length + 1) payload
        = some ((List.ofFn f).map Item.data) := by
      refine parseItems_data _ _ ?_
      have hle := length_le_flatten (List.ofFn f)
      rw [← hp] at hle
      rw [List.length_append]
      omega
    have hall : parseItems ((lengthPrefix 192 payload.length ++ payload).length + 2)
        (lengthPrefix 192 payload.length ++ payload) = some [.list n fun i => .data (f i)] := by
      rw [hpre, List.cons_append] at hsplit hitems ⊢
      rw [parseItems, hsplit]
      simp only [Option.bind_eq_bind, Option.bind_some, if_true, hitems, Option.map_some,
        list_get_ofFn]
      rfl
    rw [hall]
  item0_data b := by
    have h := splitItem_data b []
    rw [List.append_nil] at h
    simp only [rlp, outItem, h]
  out_ne_nil := outItem_ne_nil
  out_length b hb := by
    have hpre : lengthPrefix 128 64 = [184, 64] := by decide
    simp [rlp, outItem, outData, hb, hpre]

end Tfs.Rlp
