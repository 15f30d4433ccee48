import OrionNetwork.BitStreams

/-!
# The formats of Falcon

Words of a fixed width stand one behind the other, in the public key those of the polynomial `h`
and in the secret key the small ones. The values of a signature have a width of their own: the sign,
seven bits, and as many zeros as the rest says, with a one behind them. What is left of the last
byte is zero. An encoder or decoder that returns zero refuses.
-/
namespace OrionNetwork.Falcon
open BitStreams

/-- `refused` is `return 0`. To read behind the end of an array is undefined. -/
inductive Stop where
  | refused
  | outOfBounds
  deriving DecidableEq, Repr

abbrev Outcome (α : Type) := Except Stop α

section Words

variable {α : Type}

def pushWord (width : ℕ) (s : List UInt8 × UInt32 × ℕ) (w : UInt32) : List UInt8 × UInt32 × ℕ :=
  let (buf, acc, accLen) := s
  let acc := acc <<< UInt32.ofNat width ||| w
  let (bytes, accLen) := drain acc (accLen + width)
  (buf ++ bytes, acc, accLen)

def packWords (width : ℕ) (ws : List UInt32) : List UInt8 :=
  let (buf, acc, accLen) := ws.foldl (pushWord width) ([], 0, 0)
  buf ++ flush acc accLen

/-- The words that are full, at most `room` of them. -/
def popWords (width : ℕ) (read : UInt32 → Outcome α) (acc : UInt32) :
    ℕ → ℕ → Outcome (List α × ℕ)
  | 0, accLen => .ok ([], accLen)
  | room + 1, accLen =>
    if width ≤ accLen then do
      let accLen := accLen - width
      let x ← read (acc >>> UInt32.ofNat accLen)
      let (rest, accLen) ← popWords width read acc room accLen
      return (x :: rest, accLen)
    else .ok ([], accLen)

/-- `room` tells how many words are taken after a byte, from how many are missing. -/
def unpackLoop (width : ℕ) (read : UInt32 → Outcome α) (room : ℕ → ℕ) (n : ℕ) :
    List UInt8 → List α → UInt32 → ℕ → Outcome (List α × UInt32 × ℕ)
  | [], x, acc, accLen => if x.length < n then .error .outOfBounds else .ok (x, acc, accLen)
  | b :: buf, x, acc, accLen =>
    if x.length < n then do
      let acc := acc <<< 8 ||| b.toUInt32
      let (words, accLen) ← popWords width read acc (room (n - x.length)) (accLen + 8)
      unpackLoop width read room n buf (x ++ words) acc accLen
    else .ok (x, acc, accLen)

def sizeOf (n width : ℕ) : ℕ := (n * width + 7) >>> 3

def unpackWords (width : ℕ) (read : UInt32 → Outcome α) (room : ℕ → ℕ) (n maxInLen : ℕ)
    (buf : List UInt8) : Outcome (List α × ℕ) :=
  if maxInLen < sizeOf n width then .error .refused
  else do
    let (x, acc, accLen) ← unpackLoop width read room n buf [] 0 0
    if acc &&& ((1 <<< UInt32.ofNat accLen) - 1) ≠ 0 then .error .refused
    else return (x, sizeOf n width)

end Words

def modqEncode (maxOutLen : ℕ) (x : List UInt16) : Outcome (List UInt8) :=
  if x.any fun v => 12289 ≤ v.toNat then .error .refused
  else if maxOutLen < sizeOf x.length 14 then .error .refused
  else .ok (packWords 14 (x.map fun v => v.toUInt32))

def modqRead (w : UInt32) : Outcome UInt16 :=
  let w := w &&& 0x3fff
  if 12289 ≤ w.toNat then .error .refused else .ok w.toUInt16

/-- One word is taken after a byte. -/
def modqDecode (n maxInLen : ℕ) (buf : List UInt8) : Outcome (List UInt16 × ℕ) :=
  unpackWords 14 modqRead (fun _ => 1) n maxInLen buf

def trimMask (bits : ℕ) : UInt32 := (1 <<< UInt32.ofNat bits) - 1

def trimI8Encode (bits maxOutLen : ℕ) (x : List Int8) : Outcome (List UInt8) :=
  let maxv : ℤ := (1 <<< (bits - 1)) - 1
  let minv := -maxv
  if x.any fun v => v.toInt < minv ∨ maxv < v.toInt then .error .refused
  else if maxOutLen < sizeOf x.length bits then .error .refused
  else .ok (packWords bits (x.map fun v => v.toUInt8.toUInt32 &&& trimMask bits))

def trimI8Read (bits : ℕ) (w : UInt32) : Outcome Int8 :=
  let mask2 : UInt32 := 1 <<< UInt32.ofNat (bits - 1)
  let w := w &&& trimMask bits
  let w := w ||| -(w &&& mask2)
  if w = -mask2 then .error .refused else .ok w.toUInt8.toInt8

def trimI8Decode (n bits maxInLen : ℕ) (buf : List UInt8) : Outcome (List Int8 × ℕ) :=
  unpackWords bits (trimI8Read bits) id n maxInLen buf

section Values

/-- A byte goes out if there is room for it. -/
def emit (maxOutLen : ℕ) (out : List UInt8) (b : UInt8) : Outcome (List UInt8) :=
  if maxOutLen ≤ out.length then .error .refused else .ok (out ++ [b])

def compPush (maxOutLen : ℕ) (s : List UInt8 × UInt32 × ℕ) (x : ℤ) :
    Outcome (List UInt8 × UInt32 × ℕ) := do
  let (out, acc, accLen) := s
  let acc := acc <<< 1
  let (t, acc) := if x < 0 then (-x, acc ||| 1) else (x, acc)
  let w := UInt32.ofNat t.toNat
  let acc := acc <<< 7
  let acc := acc ||| w &&& 127
  let w := w >>> 7
  let acc := acc <<< (w + 1)
  let acc := acc ||| 1
  let (bytes, accLen) := drain acc (accLen + 8 + (w + 1).toNat)
  let out ← bytes.foldlM (emit maxOutLen) out
  return (out, acc, accLen)

/-- The values are those of `int16_t`. -/
def compEncode (maxOutLen : ℕ) (x : List ℤ) : Outcome (List UInt8) :=
  if x.any fun v => v < -2047 ∨ 2047 < v then .error .refused
  else do
    let (out, acc, accLen) ← x.foldlM (compPush maxOutLen) ([], 0, 0)
    (flush acc accLen).foldlM (emit maxOutLen) out

/-- The memory behind a pointer ends somewhere, whatever length is given. -/
def nextByte (memory : List UInt8) (maxInLen v : ℕ) : Outcome UInt8 :=
  if maxInLen ≤ v then .error .refused
  else
    match memory[v]? with
    | none => .error .outOfBounds
    | some b => .ok b

def refill (memory : List UInt8) (maxInLen : ℕ) (s : ℕ × UInt32 × ℕ) :
    Outcome (ℕ × UInt32 × ℕ) :=
  let (v, acc, accLen) := s
  if accLen = 0 then do
    let b ← nextByte memory maxInLen v
    return (v + 1, acc <<< 8 ||| b.toUInt32, 8)
  else .ok s

def compBit (memory : List UInt8) (maxInLen : ℕ) (s : ℕ × UInt32 × ℕ) :
    Outcome (Bool × ℕ × UInt32 × ℕ) := do
  let (v, acc, accLen) ← refill memory maxInLen s
  let accLen := accLen - 1
  return (acc >>> UInt32.ofNat accLen &&& 1 ≠ 0, v, acc, accLen)

/-- The loop that adds 128 for a zero. It has added more than 2047 after the sixteenth. -/
def compUnary (memory : List UInt8) (maxInLen : ℕ) :
    ℕ → ℕ × UInt32 × ℕ → ℕ → Outcome (ℕ × ℕ × UInt32 × ℕ)
  | 0, _, _ => .error .refused
  | k + 1, s, m => do
    let (one, s) ← compBit memory maxInLen s
    if one then .ok (m, s)
    else
      let m := m + 128
      if 2047 < m then .error .refused else compUnary memory maxInLen k s m

def compValue (memory : List UInt8) (maxInLen : ℕ) (s : ℕ × UInt32 × ℕ) :
    Outcome (ℤ × ℕ × UInt32 × ℕ) := do
  let (v, acc, accLen) := s
  let b ← nextByte memory maxInLen v
  let acc := acc <<< 8 ||| b.toUInt32
  let b := acc >>> UInt32.ofNat accLen
  let s := b &&& 128
  let m := b &&& 127
  let (m, t) ← compUnary memory maxInLen 16 (v + 1, acc, accLen) m.toNat
  if s ≠ 0 ∧ m = 0 then .error .refused
  else return (if s ≠ 0 then -(m : ℤ) else m, t)

def compLoop (memory : List UInt8) (maxInLen : ℕ) :
    ℕ → ℕ × UInt32 × ℕ → Outcome (List ℤ × ℕ × UInt32 × ℕ)
  | 0, s => .ok ([], s)
  | n + 1, s => do
    let (x, s) ← compValue memory maxInLen s
    let (rest, s) ← compLoop memory maxInLen n s
    return (x :: rest, s)

def compDecode (n maxInLen : ℕ) (memory : List UInt8) : Outcome (List ℤ × ℕ) := do
  let (x, v, acc, accLen) ← compLoop memory maxInLen n (0, 0, 0)
  if acc &&& ((1 <<< UInt32.ofNat accLen) - 1) ≠ 0 then .error .refused
  else return (x, v)

end Values

section Words

variable {α : Type} {width : ℕ} {acc : UInt32} {len : ℕ}

/-- What the encoder has written, with what waits in the accumulator. -/
def Holds (s : List UInt8 × UInt32 × ℕ) (written : List Bool) : Prop :=
  byteBits s.1 ++ bits s.2.2 s.2.1.toNat = written ∧ s.2.2 < 8

theorem Holds.pushWord {s : List UInt8 × UInt32 × ℕ} {written : List Bool} {w : UInt32}
    (h : Holds s written) (hwidth : width ≤ 24) (hw : w.toNat < 2 ^ width) :
    Holds (pushWord width s w) (written ++ bits width w.toNat) := by
  obtain ⟨buf, acc, accLen⟩ := s
  obtain ⟨hwritten, hlen⟩ := h
  dsimp only at hwritten hlen
  obtain ⟨hdrain, hleft⟩ := drain_spec (acc <<< UInt32.ofNat width ||| w)
    (show accLen + width < 40 by omega)
  refine ⟨?_, hleft⟩
  unfold Falcon.pushWord
  dsimp only
  rw [byteBits_append, List.append_assoc, ← hdrain, bits_push (by omega) (by omega) hw,
    ← List.append_assoc, hwritten]

theorem Holds.flush {buf : List UInt8} {written : List Bool} (h : Holds (buf, acc, len) written) :
    byteBits (buf ++ flush acc len) =
      written ++ List.replicate (8 * (buf ++ flush acc len).length - written.length) false ∧
    written.length ≤ 8 * (buf ++ flush acc len).length ∧
      8 * (buf ++ flush acc len).length < written.length + 8 := by
  obtain ⟨hwritten, hlen⟩ := h
  dsimp only at hwritten hlen
  have hlength : 8 * buf.length + len = written.length := by
    rw [← hwritten, List.length_append, length_byteBits, length_bits]
  have hrest := length_flush acc hlen
  have hpad : 8 * (buf ++ BitStreams.flush acc len).length - written.length =
      8 * (BitStreams.flush acc len).length - len := by
    rw [List.length_append]
    omega
  refine ⟨?_, ?_, ?_⟩
  · rw [hpad, byteBits_append, byteBits_flush hlen, ← List.append_assoc, hwritten]
  · rw [List.length_append]
    omega
  · rw [List.length_append]
    omega

/-- The words of a stream of bits. -/
def wordBits (width : ℕ) (ws : List UInt32) : List Bool := ws.flatMap fun w => bits width w.toNat

theorem length_wordBits (ws : List UInt32) : (wordBits width ws).length = ws.length * width := by
  induction ws with
  | nil => rw [List.length_nil, Nat.zero_mul]; rfl
  | cons w ws ih =>
    unfold wordBits at ih ⊢
    rw [List.flatMap_cons, List.length_append, length_bits, ih, List.length_cons]
    ring

theorem sizeOf_eq_iff {n k : ℕ} : k = sizeOf n width ↔ n * width ≤ 8 * k ∧ 8 * k < n * width + 8 := by
  unfold sizeOf
  rw [Nat.shiftRight_eq_div_pow]
  omega

/-- The words of the input, with zeros behind them. -/
theorem packWords_spec (hwidth : width ≤ 24) {ws : List UInt32}
    (hws : ∀ w ∈ ws, w.toNat < 2 ^ width) :
    byteBits (packWords width ws) = wordBits width ws ++
        List.replicate (8 * sizeOf ws.length width - ws.length * width) false ∧
      (packWords width ws).length = sizeOf ws.length width := by
  have hloop (ws : List UInt32) (hws : ∀ w ∈ ws, w.toNat < 2 ^ width)
      (s : List UInt8 × UInt32 × ℕ) (written : List Bool) (h : Holds s written) :
      Holds (ws.foldl (pushWord width) s) (written ++ wordBits width ws) := by
    induction ws generalizing s written with
    | nil => rwa [wordBits, List.flatMap_nil, List.append_nil]
    | cons w ws ih =>
      have hnext := ih (fun w hw => hws w (List.mem_cons_of_mem _ hw)) _ _
        (h.pushWord hwidth (hws w List.mem_cons_self))
      rwa [List.append_assoc] at hnext
  have hstart : Holds ([], 0, 0) [] := ⟨rfl, by norm_num⟩
  have hend := hloop ws hws _ _ hstart
  unfold packWords
  obtain ⟨⟨buf, acc, accLen⟩, hs⟩ : ∃ s, s = ws.foldl (pushWord width) ([], 0, 0) := ⟨_, rfl⟩
  rw [← hs] at hend ⊢
  dsimp only
  rw [List.nil_append] at hend
  obtain ⟨hbits, hle, hlt⟩ := hend.flush
  rw [length_wordBits] at hbits hle hlt
  have hlength := sizeOf_eq_iff.mpr ⟨hle, hlt⟩
  rw [hlength] at hbits
  exact ⟨hbits, hlength⟩

/-- A word is read as what is written as it. -/
def Inverse (width : ℕ) (read : UInt32 → Outcome α) (code : α → UInt32) (valid : α → Prop) : Prop :=
  ∀ w x, read w = .ok x ↔ valid x ∧ bits width w.toNat = bits width (code x).toNat

variable {read : UInt32 → Outcome α} {code : α → UInt32} {valid : α → Prop} {room : ℕ}

theorem bind_eq_ok_iff {α β : Type} {x : Outcome α} {f : α → Outcome β} {b : β} :
    x >>= f = .ok b ↔ ∃ a, x = .ok a ∧ f a = .ok b := by
  cases x with
  | error why =>
    constructor
    · intro h
      cases h
    · rintro ⟨a, h, -⟩
      cases h
  | ok a =>
    constructor
    · intro h
      exact ⟨a, rfl, h⟩
    · rintro ⟨a, h, hf⟩
      cases h
      exact hf

theorem popWords_eq_ok_iff {words : List α} {left : ℕ} :
    popWords width read acc (room + 1) len = .ok (words, left) ↔
      (width ≤ len ∧ ∃ x rest, read (acc >>> UInt32.ofNat (len - width)) = .ok x ∧
        popWords width read acc room (len - width) = .ok (rest, left) ∧ words = x :: rest) ∨
      len < width ∧ words = [] ∧ left = len := by
  rw [popWords]
  split_ifs with hfull
  · constructor
    · intro h
      obtain ⟨x, hx, h⟩ := bind_eq_ok_iff.mp h
      obtain ⟨⟨rest, left'⟩, hrest, h⟩ := bind_eq_ok_iff.mp h
      cases h
      exact .inl ⟨hfull, x, rest, hx, hrest, rfl⟩
    · rintro (⟨-, x, rest, hx, hrest, rfl⟩ | ⟨hless, -⟩)
      · exact bind_eq_ok_iff.mpr ⟨x, hx, bind_eq_ok_iff.mpr ⟨_, hrest, rfl⟩⟩
      · omega
  · constructor
    · intro h
      cases h
      exact .inr ⟨by omega, rfl, rfl⟩
    · rintro (⟨hle, -⟩ | ⟨-, rfl, rfl⟩)
      · exact absurd hle hfull
      · rfl

theorem wordBits_cons (w : UInt32) (ws : List UInt32) :
    wordBits width (w :: ws) = bits width w.toNat ++ wordBits width ws := rfl

theorem wordBits_append (ws us : List UInt32) :
    wordBits width (ws ++ us) = wordBits width ws ++ wordBits width us := List.flatMap_append

/-- The highest word of the accumulator, and the rest of it. -/
theorem bits_word (hle : width ≤ len) (hlen : len - width < 32) :
    bits len acc.toNat = bits width (acc >>> UInt32.ofNat (len - width)).toNat ++
      bits (len - width) acc.toNat := by
  rw [← bits_pop hlen, Nat.add_sub_cancel' hle]

theorem popWords_sound (hread : Inverse width read code valid) (hpos : 0 < width) (hlen : len ≤ 32)
    {words : List α} {left : ℕ} (h : popWords width read acc room len = .ok (words, left)) :
    bits len acc.toNat = wordBits width (words.map code) ++ bits left acc.toNat ∧
      (∀ x ∈ words, valid x) ∧ words.length ≤ room ∧ (left < width ∨ words.length = room) := by
  induction room generalizing len words with
  | zero =>
    cases h
    exact ⟨rfl, fun x hx => absurd hx List.not_mem_nil, Nat.le_refl 0, .inr rfl⟩
  | succ room ih =>
    rcases popWords_eq_ok_iff.mp h with ⟨hle, x, rest, hx, hrest, rfl⟩ | ⟨hless, rfl, rfl⟩
    · obtain ⟨hvalid, hword⟩ := (hread _ _).mp hx
      obtain ⟨hbits, hall, hcount, hend⟩ := ih (by omega) hrest
      refine ⟨?_, List.forall_mem_cons.mpr ⟨hvalid, hall⟩, Nat.succ_le_succ hcount,
        hend.imp_right fun hcount => congrArg (· + 1) hcount⟩
      rw [bits_word hle (by omega), hbits, hword, List.map_cons, wordBits_cons, List.append_assoc]
    · exact ⟨rfl, fun x hx => absurd hx List.not_mem_nil, Nat.zero_le _, .inl hless⟩

/-- The words at the front of a stream are taken. -/
theorem popWords_complete (hread : Inverse width read code valid) (hpos : 0 < width)
    (hlen : len ≤ 32) {later tail : List Bool} {rest : List α} (hvalid : ∀ x ∈ rest, valid x)
    (hroom : room ≤ rest.length)
    (h : bits len acc.toNat ++ later = wordBits width (rest.map code) ++ tail) :
    ∃ words rest' left, rest = words ++ rest' ∧
      popWords width read acc room len = .ok (words, left) ∧
      bits left acc.toNat ++ later = wordBits width (rest'.map code) ++ tail := by
  induction room generalizing len rest with
  | zero => exact ⟨[], rest, len, rfl, rfl, h⟩
  | succ room ih =>
    by_cases hle : width ≤ len
    · cases rest with
      | nil => cases hroom
      | cons x rest =>
        rw [bits_word hle (by omega), List.map_cons, wordBits_cons, List.append_assoc,
          List.append_assoc] at h
        obtain ⟨hword, hrest⟩ := List.append_inj h (by rw [length_bits, length_bits])
        obtain ⟨hx, hvalid⟩ := List.forall_mem_cons.mp hvalid
        obtain ⟨words, rest', left, rfl, hpop, hbits⟩ :=
          ih (by omega) hvalid (Nat.succ_le_succ_iff.mp hroom) hrest
        refine ⟨x :: words, rest', left, rfl, ?_, hbits⟩
        exact popWords_eq_ok_iff.mpr
          (.inl ⟨hle, x, words, (hread _ _).mpr ⟨hx, hword⟩, hpop, rfl⟩)
    · exact ⟨[], rest, len, rfl, popWords_eq_ok_iff.mpr (.inr ⟨by omega, rfl, rfl⟩), h⟩

/-- After each byte either all missing words are taken, or one that may be wider than a byte. -/
def Enough (width : ℕ) (room : ℕ → ℕ) : Prop :=
  ∀ m, 0 < m → room m = m ∨ room m = 1 ∧ 8 ≤ width

theorem Enough.le {room : ℕ → ℕ} (h : Enough width room) {m : ℕ} (hm : 0 < m) : room m ≤ m := by
  rcases h m hm with h | ⟨h, -⟩ <;> omega

variable {room : ℕ → ℕ} {n : ℕ} {buf : List UInt8}

/-- Where the loop is: less than a word waits, or all words are there. -/
def Waits (width n : ℕ) (x : List α) (accLen : ℕ) : Prop :=
  x.length ≤ n ∧ (accLen < width ∨ x.length = n)

theorem Enough.waits {room : ℕ → ℕ} (h : Enough width room) {x words : List α} {left : ℕ}
    (hless : x.length < n) (hlen : len < width) (hcount : words.length ≤ n - x.length)
    (hsize : len + 8 = words.length * width + left)
    (hend : left < width ∨ words.length = room (n - x.length)) :
    Waits width n (x ++ words) left := by
  refine ⟨by rw [List.length_append]; omega, ?_⟩
  rcases hend with hend | hend
  · exact .inl hend
  · rcases h (n - x.length) (by omega) with hall | ⟨hone, hwide⟩
    · refine .inr ?_
      rw [List.length_append]
      omega
    · refine .inl ?_
      rw [hend, hone] at hsize
      omega

/-- What a loop that ends has read, and how much is left of the last byte. -/
theorem unpackLoop_sound (hread : Inverse width read code valid) (hpos : 0 < width)
    (hwidth : width ≤ 24) (hroom : Enough width room) {x x' : List α} {acc' : UInt32} {len' : ℕ}
    (hwaits : Waits width n x len)
    (h : unpackLoop width read room n buf x acc len = .ok (x', acc', len')) :
    ∃ words used buf', x' = x ++ words ∧ buf = used ++ buf' ∧ x'.length = n ∧
      (∀ v ∈ words, valid v) ∧ (len' < 8 ∨ len' = len ∧ x' = x) ∧
      bits len acc.toNat ++ byteBits used =
        wordBits width (words.map code) ++ bits len' acc'.toNat := by
  induction buf generalizing x acc len with
  | nil =>
    unfold unpackLoop at h
    split_ifs at h with hless
    obtain ⟨rfl, rfl, rfl⟩ : x = x' ∧ acc = acc' ∧ len = len' := by simpa using h
    exact ⟨[], [], [], (List.append_nil x).symm, rfl, Nat.le_antisymm hwaits.1 (by omega),
      fun v hv => absurd hv List.not_mem_nil, .inr ⟨rfl, rfl⟩, List.append_nil _⟩
  | cons b buf ih =>
    unfold unpackLoop at h
    split_ifs at h with hless
    · obtain ⟨⟨words, left⟩, hpop, hloop⟩ := bind_eq_ok_iff.mp h
      dsimp only at hloop
      have hwait : len < width := hwaits.2.resolve_right (by omega)
      obtain ⟨hbits, hvalid, hcount, hend⟩ := popWords_sound hread hpos (by omega) hpop
      have hfits := hroom.le (m := n - x.length) (by omega)
      have hsize := congrArg List.length hbits
      rw [List.length_append, length_bits, length_bits, length_wordBits, List.length_map] at hsize
      have hwaits' : Waits width n (x ++ words) left :=
        hroom.waits hless hwait (by omega) hsize hend
      obtain ⟨words', used, buf', rfl, rfl, hlength, hvalid', hleft, hrest⟩ := ih hwaits' hloop
      refine ⟨words ++ words', b :: used, buf', List.append_assoc _ _ _, rfl, hlength,
        List.forall_mem_append.mpr ⟨hvalid, hvalid'⟩, .inl ?_, ?_⟩
      · rcases hleft with hleft | ⟨hleft, hsame⟩
        · exact hleft
        · -- the last words have come from this byte
          rw [hsame, List.length_append] at hlength
          have hmul : 1 * width ≤ words.length * width := Nat.mul_le_mul_right _ (by omega)
          omega
      · rw [bits_pull b (by omega)] at hbits
        rw [byteBits_cons, ← List.append_assoc, hbits, List.append_assoc, hrest, List.map_append,
          wordBits_append, List.append_assoc]
    · obtain ⟨rfl, rfl, rfl⟩ : x = x' ∧ acc = acc' ∧ len = len' := by simpa using h
      exact ⟨[], [], b :: buf, (List.append_nil x).symm, rfl, Nat.le_antisymm hwaits.1 (by omega),
        fun v hv => absurd hv List.not_mem_nil, .inr ⟨rfl, rfl⟩, List.append_nil _⟩

/-- Words at the front of the input are read, whatever is behind them. -/
theorem unpackLoop_complete (hread : Inverse width read code valid) (hpos : 0 < width)
    (hwidth : width ≤ 24) (hroom : Enough width room) {x rest : List α} {tail : List Bool}
    (hwaits : Waits width n x len) (hlength : x.length + rest.length = n)
    (hvalid : ∀ v ∈ rest, valid v)
    (h : bits len acc.toNat ++ byteBits buf = wordBits width (rest.map code) ++ tail) :
    ∃ acc' len' buf', unpackLoop width read room n buf x acc len = .ok (x ++ rest, acc', len') ∧
      bits len' acc'.toNat ++ byteBits buf' = tail := by
  have hsize := congrArg List.length h
  rw [List.length_append, List.length_append, length_bits, length_wordBits, List.length_map] at hsize
  induction buf generalizing x acc len rest with
  | nil =>
    unfold unpackLoop
    by_cases hless : x.length < n
    · have hwait : len < width := hwaits.2.resolve_right (by omega)
      have hmul : 1 * width ≤ rest.length * width := Nat.mul_le_mul_right _ (by omega)
      rw [byteBits_nil, List.length_nil] at hsize
      omega
    · obtain rfl : rest = [] := List.length_eq_zero_iff.mp (by omega)
      rw [if_neg hless, List.append_nil]
      exact ⟨acc, len, [], rfl, h⟩
  | cons b buf ih =>
    unfold unpackLoop
    by_cases hless : x.length < n
    · rw [if_pos hless]
      have hwait : len < width := hwaits.2.resolve_right (by omega)
      have hpulled := h
      rw [byteBits_cons, ← List.append_assoc, ← bits_pull b (by omega)] at hpulled
      have hfits := hroom.le (m := n - x.length) (by omega)
      have htaken : room (n - x.length) ≤ rest.length := by omega
      obtain ⟨words, rest', left, rfl, hpop, hbits⟩ :=
        popWords_complete hread hpos (by omega) hvalid htaken hpulled
      obtain ⟨hpopped, -, hcount, hend⟩ := popWords_sound hread hpos (by omega) hpop
      have hleft := congrArg List.length hpopped
      rw [List.length_append, length_bits, length_bits, length_wordBits, List.length_map] at hleft
      have hwaits' : Waits width n (x ++ words) left :=
        hroom.waits hless hwait (by omega) hleft hend
      have hlength' : (x ++ words).length + rest'.length = n := by
        rw [List.length_append] at hlength ⊢
        omega
      have hsize' := congrArg List.length hbits
      rw [List.length_append, List.length_append, length_bits, length_wordBits, List.length_map]
        at hsize'
      obtain ⟨acc', len', buf', hloop, htail⟩ := ih hwaits' hlength'
        (fun v hv => hvalid v (List.mem_append_right _ hv)) hbits hsize'
      refine ⟨acc', len', buf', bind_eq_ok_iff.mpr ⟨_, hpop, ?_⟩, htail⟩
      rw [← List.append_assoc]
      exact hloop
    · obtain rfl : rest = [] := List.length_eq_zero_iff.mp (by omega)
      rw [if_neg hless, List.append_nil]
      exact ⟨acc, len, b :: buf, rfl, h⟩

section Packed

variable (hread : Inverse width read code valid) (hpos : 0 < width) (hwidth : width ≤ 24)
  (hroom : Enough width room) (hcode : ∀ x, valid x → (code x).toNat < 2 ^ width)

include hcode in
theorem words_lt {x : List α} (hvalid : ∀ v ∈ x, valid v) :
    ∀ w ∈ x.map code, w.toNat < 2 ^ width := by
  intro w hw
  obtain ⟨v, hv, rfl⟩ := List.mem_map.mp hw
  exact hcode v (hvalid v hv)

include hread hpos hwidth hroom

/-- The loop from the start of the input: it takes as many bytes as the encoder writes. -/
theorem unpackLoop_start {x : List α} {acc' : UInt32} {len' : ℕ}
    (h : unpackLoop width read room n buf [] 0 0 = .ok (x, acc', len')) :
    x.length = n ∧ (∀ v ∈ x, valid v) ∧ len' < 8 ∧ sizeOf n width ≤ buf.length ∧
      byteBits (buf.take (sizeOf n width)) =
        wordBits width (x.map code) ++ bits len' acc'.toNat := by
  obtain ⟨words, used, buf', hx, rfl, hlength, hvalid, hleft, hbits⟩ :=
    unpackLoop_sound hread hpos hwidth hroom ⟨Nat.zero_le n, .inl hpos⟩ h
  obtain rfl : x = words := hx
  have hsmall : len' < 8 := by
    rcases hleft with hleft | ⟨rfl, -⟩ <;> omega
  have hcount := congrArg List.length hbits
  rw [List.length_append, List.length_append, length_bits, length_bits, length_byteBits,
    length_wordBits, List.length_map, hlength] at hcount
  have hused : used.length = sizeOf n width := sizeOf_eq_iff.mpr (by omega)
  refine ⟨hlength, hvalid, hsmall, by rw [List.length_append]; omega, ?_⟩
  rw [List.take_left' hused]
  exact hbits

include hcode in
/-- What is read is what the encoder writes for it, and no other input is read. -/
theorem unpackWords_eq_ok_iff {maxInLen size : ℕ} {x : List α} :
    unpackWords width read room n maxInLen buf = .ok (x, size) ↔
      x.length = n ∧ (∀ v ∈ x, valid v) ∧ size = sizeOf n width ∧ size ≤ maxInLen ∧
        size ≤ buf.length ∧ packWords width (x.map code) = buf.take size := by
  unfold unpackWords
  by_cases hmax : maxInLen < sizeOf n width
  · rw [if_pos hmax]
    constructor
    · intro h
      cases h
    · rintro ⟨-, -, rfl, hle, -⟩
      omega
  rw [if_neg hmax]
  have hpacked {x : List α} (hlength : x.length = n) (hvalid : ∀ v ∈ x, valid v) :=
    (packWords_spec hwidth (words_lt hcode hvalid)).1
  constructor
  · intro h
    obtain ⟨⟨x', acc', len'⟩, hloop, h⟩ := bind_eq_ok_iff.mp h
    dsimp only at h
    split_ifs at h with hzero
    cases h
    obtain ⟨hlength, hvalid, hsmall, hsize, hbits⟩ :=
      unpackLoop_start hread hpos hwidth hroom hloop
    refine ⟨hlength, hvalid, rfl, by omega, hsize, byteBits_injective ?_⟩
    have hpad := (and_mask_eq_zero_iff (by omega)).mp (not_not.mp hzero)
    have hcount := congrArg List.length hbits
    rw [length_byteBits, List.length_take_of_le hsize, List.length_append, length_bits,
      length_wordBits, List.length_map, hlength] at hcount
    rw [hpacked hlength hvalid, hbits, hpad, List.length_map, hlength]
    congr 2
    omega
  · rintro ⟨hlength, hvalid, rfl, hle, hbuf, hpack⟩
    have htake := hpacked hlength hvalid
    rw [hpack, List.length_map, hlength] at htake
    have hfront : bits 0 (0 : UInt32).toNat ++ byteBits buf = wordBits width (x.map code) ++
        (List.replicate (8 * sizeOf n width - n * width) false ++
          byteBits (buf.drop (sizeOf n width))) := by
      rw [← List.append_assoc, ← htake, ← byteBits_append, List.take_append_drop]
      rfl
    have hstart : Waits width n ([] : List α) 0 := ⟨Nat.zero_le n, .inl hpos⟩
    have hcount : ([] : List α).length + x.length = n := (Nat.zero_add _).trans hlength
    obtain ⟨acc', len', buf', hloop, -⟩ :=
      unpackLoop_complete hread hpos hwidth hroom hstart hcount hvalid hfront
    rw [List.nil_append] at hloop
    obtain ⟨-, -, hsmall, -, hbits⟩ := unpackLoop_start hread hpos hwidth hroom hloop
    have hpad := List.append_cancel_left (hbits.symm.trans htake)
    have hzero := congrArg List.length hpad
    rw [length_bits, List.length_replicate] at hzero
    refine bind_eq_ok_iff.mpr ⟨_, hloop, ?_⟩
    dsimp only
    rw [← hzero] at hpad
    rw [if_neg (not_not.mpr ((and_mask_eq_zero_iff (by omega)).mpr hpad))]
    rfl

include hcode in
/-- The same with the checks of an encoder. -/
theorem unpackWords_eq_ok_iff_pack {bad : α → Bool} (hbad : ∀ x, bad x = true ↔ ¬ valid x)
    {maxLen size : ℕ} {x : List α} :
    unpackWords width read room n maxLen buf = .ok (x, size) ↔
      x.length = n ∧ size ≤ buf.length ∧
        (if x.any bad then .error .refused
          else if maxLen < sizeOf x.length width then .error .refused
          else .ok (packWords width (x.map code))) = Except.ok (ε := Stop) (buf.take size) := by
  rw [unpackWords_eq_ok_iff hread hpos hwidth hroom hcode]
  constructor
  · rintro ⟨hlength, hvalid, rfl, hle, hbuf, hpack⟩
    refine ⟨hlength, hbuf, ?_⟩
    have hnone : ¬ x.any bad = true := by
      intro hany
      obtain ⟨v, hv, hinvalid⟩ := List.any_eq_true.mp hany
      exact (hbad v).mp hinvalid (hvalid v hv)
    rw [if_neg hnone, hlength, if_neg (by omega), hpack]
  · rintro ⟨hlength, hbuf, hpack⟩
    split_ifs at hpack with hany hmax
    have hvalid : ∀ v ∈ x, valid v := by
      intro v hv
      by_contra hinvalid
      exact hany (List.any_eq_true.mpr ⟨v, hv, (hbad v).mpr hinvalid⟩)
    have htake := Except.ok.inj hpack
    have hsize := (packWords_spec hwidth (words_lt hcode hvalid)).2
    rw [List.length_map, htake, List.length_take_of_le hbuf, hlength] at hsize
    exact ⟨hlength, hvalid, hsize, by rw [hsize, ← hlength]; omega, hbuf, htake⟩

end Packed

end Words

section Keys

variable {n maxLen size width : ℕ} {buf out : List UInt8}

theorem toNat_and_fill (w : UInt32) : (w &&& 0x3fff).toNat = w.toNat % 2 ^ 14 :=
  toNat_and_mask (k := 14) (by norm_num)

theorem inverse_modqRead :
    Inverse 14 modqRead (fun v => v.toUInt32) fun v => v.toNat < 12289 := by
  intro w x
  have hmask := toNat_and_fill w
  have hlt : w.toNat % 2 ^ 14 < 2 ^ 14 := Nat.mod_lt _ (Nat.two_pow_pos 14)
  have hbits : bits 14 w.toNat = bits 14 x.toUInt32.toNat ↔ w.toNat % 2 ^ 14 = x.toNat % 2 ^ 14 := by
    rw [← bits_mod (Nat.le_refl 14) w.toNat, ← bits_mod (Nat.le_refl 14) x.toUInt32.toNat,
      UInt16.toNat_toUInt32]
    constructor
    · exact bits_injective hlt (Nat.mod_lt _ (Nat.two_pow_pos 14))
    · intro h
      rw [h]
  rw [hbits]
  unfold modqRead
  dsimp only
  rw [hmask]
  split_ifs with hbig
  · constructor
    · intro h
      cases h
    · rintro ⟨hx, hsame⟩
      omega
  · rw [Except.ok.injEq, ← UInt16.toNat_inj, UInt32.toNat_toUInt16, hmask]
    omega

/-- The values of a polynomial modulo 12289 are read from what is written for them only. -/
theorem modqDecode_eq_ok_iff {x : List UInt16} : modqDecode n maxLen buf = .ok (x, size) ↔
    x.length = n ∧ size ≤ buf.length ∧ modqEncode maxLen x = .ok (buf.take size) := by
  have hcode : ∀ v : UInt16, v.toNat < 12289 → v.toUInt32.toNat < 2 ^ 14 := by
    intro v hv
    rw [UInt16.toNat_toUInt32]
    omega
  have hroom : Enough 14 fun _ => 1 := fun _ _ => .inr ⟨rfl, by norm_num⟩
  have hbad : ∀ v : UInt16, decide (12289 ≤ v.toNat) = true ↔ ¬ v.toNat < 12289 := by
    intro v
    rw [decide_eq_true_iff, Nat.not_lt]
  exact unpackWords_eq_ok_iff_pack inverse_modqRead (by norm_num) (by norm_num) hroom hcode hbad

def trimValid (bits : ℕ) (x : Int8) : Prop :=
  -((1 <<< (bits - 1)) - 1 : ℤ) ≤ x.toInt ∧ x.toInt ≤ (1 <<< (bits - 1)) - 1

instance (bits : ℕ) (x : Int8) : Decidable (trimValid bits x) := inferInstanceAs (Decidable (_ ∧ _))

def trimCode (bits : ℕ) (x : Int8) : UInt32 := x.toUInt8.toUInt32 &&& trimMask bits

theorem trimI8Read_code : ∀ bits < 9, ∀ b < 256, 0 < bits →
    trimValid bits (UInt8.ofNat b).toInt8 →
    trimI8Read bits (trimCode bits (UInt8.ofNat b).toInt8) = .ok (UInt8.ofNat b).toInt8 := by
  decide +kernel

/-- A word that is not refused is that of the value. -/
def ReadsBack (bits w : ℕ) : Outcome Int8 → Prop
  | .ok x => trimValid bits x ∧ (trimCode bits x).toNat = w
  | .error _ => True

instance (bits w : ℕ) : DecidablePred (ReadsBack bits w)
  | .ok _ => inferInstanceAs (Decidable (_ ∧ _))
  | .error _ => isTrue trivial

theorem readsBack_trimI8Read : ∀ bits < 9, ∀ w < 2 ^ bits, 0 < bits →
    ReadsBack bits w (trimI8Read bits (UInt32.ofNat w)) := by
  decide +kernel

theorem toNat_trimMask {bits : ℕ} (h : bits < 9) (w : UInt32) :
    (w &&& trimMask bits).toNat = w.toNat % 2 ^ bits := toNat_and_mask (by omega)

theorem inverse_trimI8Read {bits : ℕ} (hpos : 0 < bits) (h : bits < 9) :
    Inverse bits (trimI8Read bits) (trimCode bits) (trimValid bits) := by
  intro w x
  have hlt : ∀ v : UInt32, (v &&& trimMask bits).toNat < 2 ^ bits := by
    intro v
    rw [toNat_trimMask h]
    exact Nat.mod_lt _ (Nat.two_pow_pos bits)
  have hmasked : trimI8Read bits w = trimI8Read bits (w &&& trimMask bits) := by
    unfold trimI8Read
    rw [UInt32.and_assoc, UInt32.and_self]
  have hofNat : UInt32.ofNat (w &&& trimMask bits).toNat = w &&& trimMask bits := UInt32.ofNat_toNat
  have hback := readsBack_trimI8Read bits h _ (hlt w) hpos
  have hx : (UInt8.ofNat x.toUInt8.toNat).toInt8 = x := by
    rw [UInt8.ofNat_toNat, Int8.toInt8_toUInt8]
  have hcode := trimI8Read_code bits h x.toUInt8.toNat x.toUInt8.toNat_lt hpos
  rw [hx] at hcode
  rw [hofNat] at hback
  constructor
  · intro hread
    rw [← hmasked, hread] at hback
    obtain ⟨hvalid, hsame⟩ := hback
    refine ⟨hvalid, ?_⟩
    rw [hsame, toNat_trimMask h, bits_mod (Nat.le_refl _)]
  · rintro ⟨hvalid, hsame⟩
    have hequal : w &&& trimMask bits = trimCode bits x := by
      refine UInt32.toNat_inj.mp (bits_injective (hlt w) (hlt _) ?_)
      rw [toNat_trimMask h, bits_mod (Nat.le_refl _), hsame]
    rw [hmasked, hequal, hcode hvalid]

/-- So are the values of the secret key. -/
theorem trimI8Decode_eq_ok_iff {bits : ℕ} (hpos : 0 < bits) (h : bits < 9) {x : List Int8} :
    trimI8Decode n bits maxLen buf = .ok (x, size) ↔
      x.length = n ∧ size ≤ buf.length ∧ trimI8Encode bits maxLen x = .ok (buf.take size) := by
  have hcode : ∀ v, trimValid bits v → (trimCode bits v).toNat < 2 ^ bits := by
    intro v _
    unfold trimCode
    rw [toNat_trimMask h]
    exact Nat.mod_lt _ (Nat.two_pow_pos bits)
  have hbad : ∀ v : Int8, decide (v.toInt < -((1 <<< (bits - 1)) - 1 : ℤ) ∨
      (1 <<< (bits - 1)) - 1 < v.toInt) = true ↔ ¬ trimValid bits v := by
    intro v
    rw [decide_eq_true_iff]
    unfold trimValid
    omega
  have hroom : Enough bits id := fun _ _ => .inl rfl
  exact unpackWords_eq_ok_iff_pack (inverse_trimI8Read hpos h) hpos (by omega) hroom hcode hbad

end Keys

section Values

/-- The bits of a value: its sign, its seven lowest bits, zeros and a one. -/
def compCode (x : ℤ) : List Bool :=
  bits 1 (if x < 0 then 1 else 0) ++ (bits 7 x.natAbs ++ bits (x.natAbs / 128 + 1) 1)

def compBits (x : List ℤ) : List Bool := x.flatMap compCode

def CompValid (x : ℤ) : Prop := -2047 ≤ x ∧ x ≤ 2047

theorem length_compCode (x : ℤ) : (compCode x).length = x.natAbs / 128 + 9 := by
  unfold compCode
  rw [List.length_append, List.length_append, length_bits, length_bits, length_bits]
  omega

theorem toNat_and_low (w : UInt32) : (w &&& 127).toNat = w.toNat % 2 ^ 7 :=
  toNat_and_mask (k := 7) (by norm_num)

/-- A value is three words: the sign, the lowest bits, and a one. -/
theorem compPush_eq (maxOutLen : ℕ) (out : List UInt8) (acc : UInt32) (len : ℕ) {x : ℤ}
    (hx : CompValid x) : ∃ sign low : UInt32, sign.toNat = (if x < 0 then 1 else 0) ∧
      low.toNat = x.natAbs % 2 ^ 7 ∧
      compPush maxOutLen (out, acc, len) x = (do
        let acc := ((acc <<< 1 ||| sign) <<< 7 ||| low) <<< UInt32.ofNat (x.natAbs / 128 + 1) ||| 1
        let (bytes, len) := drain acc (len + 8 + (x.natAbs / 128 + 1))
        let out ← bytes.foldlM (emit maxOutLen) out
        return (out, acc, len)) := by
  obtain ⟨hlo, hhi⟩ := hx
  have hsmall : x.natAbs < 2 ^ 32 := by omega
  obtain ⟨w, hw⟩ : ∃ w, w = UInt32.ofNat x.natAbs := ⟨_, rfl⟩
  have htoNat : w.toNat = x.natAbs := by
    rw [hw, UInt32.toNat_ofNat', Nat.mod_eq_of_lt hsmall]
  have hseven : (w >>> 7).toNat = x.natAbs / 128 := by
    rw [UInt32.toNat_shiftRight, htoNat]
    exact Nat.shiftRight_eq_div_pow _ 7
  have hcount : (w >>> 7 + 1).toNat = x.natAbs / 128 + 1 := by
    rw [UInt32.toNat_add, hseven, UInt32.toNat_one, Nat.mod_eq_of_lt (by omega)]
  have hshift : w >>> 7 + 1 = UInt32.ofNat (x.natAbs / 128 + 1) := by
    rw [← hcount, UInt32.ofNat_toNat]
  refine ⟨if x < 0 then 1 else 0, w &&& 127, ?_, ?_, ?_⟩
  · split_ifs <;> rfl
  · rw [toNat_and_low, htoNat]
  · unfold compPush
    rw [← hshift, ← hcount]
    by_cases hneg : x < 0
    · have habs : (-x).toNat = x.natAbs := by omega
      simp only [if_pos hneg, habs, ← hw]
    · have habs : x.toNat = x.natAbs := by omega
      simp only [if_neg hneg, habs, ← hw, UInt32.or_zero]

theorem bits_compPush (acc : UInt32) {sign low : UInt32} {len : ℕ} {x : ℤ} (hlen : len < 8)
    (hx : CompValid x) (hsign : sign.toNat = if x < 0 then 1 else 0)
    (hlow : low.toNat = x.natAbs % 2 ^ 7) :
    bits (len + 8 + (x.natAbs / 128 + 1)) (((acc <<< 1 ||| sign) <<< 7 ||| low) <<<
      UInt32.ofNat (x.natAbs / 128 + 1) ||| 1).toNat = bits len acc.toNat ++ compCode x := by
  obtain ⟨hlo, hhi⟩ := hx
  have hone : (1 : UInt32).toNat < 2 ^ (x.natAbs / 128 + 1) := Nat.one_lt_two_pow (Nat.succ_ne_zero _)
  have hbit : sign.toNat < 2 ^ 1 := by
    rw [hsign]
    split_ifs <;> norm_num
  have hseven : low.toNat < 2 ^ 7 := by
    rw [hlow]
    exact Nat.mod_lt _ (Nat.two_pow_pos 7)
  have hfirst : bits (len + 1) (acc <<< 1 ||| sign).toNat = bits len acc.toNat ++ bits 1 sign.toNat :=
    bits_push (k := 1) (by omega) (by norm_num) hbit
  have hsecond : bits (len + 1 + 7) ((acc <<< 1 ||| sign) <<< 7 ||| low).toNat =
      bits (len + 1) (acc <<< 1 ||| sign).toNat ++ bits 7 low.toNat :=
    bits_push (k := 7) (by omega) (by norm_num) hseven
  rw [bits_push (by omega) (by omega) hone, show len + 8 = len + 1 + 7 from rfl, hsecond, hfirst,
    hsign, hlow, bits_mod (Nat.le_refl 7)]
  unfold compCode
  rw [List.append_assoc, List.append_assoc]
  rfl

/-- Bytes are written as long as there is room for all of them. -/
theorem emitAll {maxOutLen : ℕ} (bytes : List UInt8) {out : List UInt8}
    (h : out.length ≤ maxOutLen) : bytes.foldlM (emit maxOutLen) out =
      if out.length + bytes.length ≤ maxOutLen then .ok (out ++ bytes) else .error .refused := by
  induction bytes generalizing out with
  | nil =>
    rw [List.length_nil, Nat.add_zero, if_pos h, List.append_nil]
    rfl
  | cons b bytes ih =>
    rw [List.foldlM_cons]
    unfold emit
    by_cases hfull : maxOutLen ≤ out.length
    · rw [if_pos hfull, if_neg (by rw [List.length_cons]; omega)]
      rfl
    · have hroom : (out ++ [b]).length ≤ maxOutLen := by
        rw [List.length_append, List.length_singleton]
        omega
      rw [if_neg hfull]
      change bytes.foldlM (emit maxOutLen) (out ++ [b]) = _
      rw [ih hroom, List.length_append, List.length_singleton, List.length_cons, List.append_assoc,
        List.singleton_append, Nat.add_assoc, Nat.add_comm 1]

/-- Where the encoder is, if there has been room for all bytes. -/
theorem compPush_spec {maxOutLen : ℕ} {s : List UInt8 × UInt32 × ℕ} {written : List Bool} {x : ℤ}
    (h : Holds s written) (hroom : s.1.length ≤ maxOutLen) (hx : CompValid x) :
    (∃ t, compPush maxOutLen s x = .ok t ∧ Holds t (written ++ compCode x) ∧
      t.1.length ≤ maxOutLen) ∨
    compPush maxOutLen s x = .error .refused ∧
      8 * maxOutLen < (written ++ compCode x).length := by
  obtain ⟨out, acc, len⟩ := s
  obtain ⟨hwritten, hlen⟩ := h
  dsimp only at hwritten hlen hroom
  obtain ⟨sign, low, hsign, hlow, heq⟩ := compPush_eq maxOutLen out acc len hx
  obtain ⟨acc', hacc'⟩ : ∃ acc', acc' = ((acc <<< 1 ||| sign) <<< 7 ||| low) <<<
    UInt32.ofNat (x.natAbs / 128 + 1) ||| 1 := ⟨_, rfl⟩
  have hbits := bits_compPush acc hlen hx hsign hlow
  rw [← hacc'] at heq hbits
  have hsize : len + 8 + (x.natAbs / 128 + 1) < 40 := by
    obtain ⟨hlo, hhi⟩ := hx
    omega
  obtain ⟨hdrain, hleft⟩ := drain_spec acc' hsize
  obtain ⟨bytes, left, hdrained⟩ : ∃ bytes left, drain acc' (len + 8 + (x.natAbs / 128 + 1)) =
    (bytes, left) := ⟨_, _, rfl⟩
  dsimp only at heq
  rw [hdrained] at heq hdrain hleft
  dsimp only at heq hdrain hleft
  rw [heq, emitAll bytes hroom]
  have hnext : byteBits (out ++ bytes) ++ bits left acc'.toNat = written ++ compCode x := by
    rw [byteBits_append, List.append_assoc, ← hdrain, hbits, ← List.append_assoc, hwritten]
  split_ifs with hfits
  · refine .inl ⟨_, rfl, ⟨hnext, hleft⟩, ?_⟩
    rw [List.length_append]
    exact hfits
  · refine .inr ⟨rfl, ?_⟩
    rw [← hnext, List.length_append, length_byteBits, List.length_append]
    omega

theorem compBits_cons (x : ℤ) (l : List ℤ) : compBits (x :: l) = compCode x ++ compBits l := rfl

theorem compPushAll_spec {maxOutLen : ℕ} {x : List ℤ} (hx : ∀ v ∈ x, CompValid v)
    {s : List UInt8 × UInt32 × ℕ} {written : List Bool} (h : Holds s written)
    (hroom : s.1.length ≤ maxOutLen) :
    (∃ t, x.foldlM (compPush maxOutLen) s = .ok t ∧ Holds t (written ++ compBits x) ∧
      t.1.length ≤ maxOutLen) ∨
    x.foldlM (compPush maxOutLen) s = .error .refused ∧
      8 * maxOutLen < (written ++ compBits x).length := by
  induction x generalizing s written with
  | nil =>
    refine .inl ⟨s, rfl, ?_, hroom⟩
    rwa [compBits, List.flatMap_nil, List.append_nil]
  | cons v x ih =>
    obtain ⟨hv, hx⟩ := List.forall_mem_cons.mp hx
    rw [List.foldlM_cons, compBits_cons, ← List.append_assoc]
    rcases compPush_spec h hroom hv with ⟨t, ht, hholds, hfits⟩ | ⟨hfull, hsize⟩
    · rw [ht]
      exact ih hx hholds hfits
    · rw [hfull]
      refine .inr ⟨rfl, ?_⟩
      rw [List.length_append]
      omega

/-- The bytes hold the bits and less than a byte of zeros. -/
def Padded (l : List Bool) (out : List UInt8) : Prop :=
  byteBits out = l ++ List.replicate (8 * out.length - l.length) false ∧
    l.length ≤ 8 * out.length ∧ 8 * out.length < l.length + 8

theorem Padded.unique {l : List Bool} {out out' : List UInt8} (h : Padded l out)
    (h' : Padded l out') : out = out' := by
  obtain ⟨hbits, hle, hlt⟩ := h
  obtain ⟨hbits', hle', hlt'⟩ := h'
  have hlength : out.length = out'.length := by omega
  exact byteBits_injective (by rw [hbits, hbits', hlength])

/-- The encoder writes the bits of the values if these are in range and there is room. -/
theorem compEncode_eq_ok_iff {maxOutLen : ℕ} {x : List ℤ} {out : List UInt8} :
    compEncode maxOutLen x = .ok out ↔
      (∀ v ∈ x, CompValid v) ∧ Padded (compBits x) out ∧ out.length ≤ maxOutLen := by
  unfold compEncode
  by_cases hx : ∀ v ∈ x, CompValid v
  · have hnone : ¬ (x.any fun v => v < -2047 ∨ 2047 < v) = true := by
      intro hany
      obtain ⟨v, hv, hbad⟩ := List.any_eq_true.mp hany
      obtain ⟨hlo, hhi⟩ := hx v hv
      have hout := of_decide_eq_true hbad
      omega
    rw [if_neg hnone]
    have hstart : Holds ([], 0, 0) [] := ⟨rfl, by norm_num⟩
    rcases compPushAll_spec hx hstart (Nat.zero_le maxOutLen) with
      ⟨⟨buf, acc, len⟩, hloop, hholds, hfits⟩ | ⟨hfull, hsize⟩
    · rw [hloop]
      rw [List.nil_append] at hholds
      have hpadded : Padded (compBits x) (buf ++ flush acc len) := hholds.flush
      change (flush acc len).foldlM (emit maxOutLen) buf = _ ↔ _
      rw [emitAll _ hfits]
      constructor
      · intro h
        split_ifs at h with hroom
        obtain rfl := Except.ok.inj h
        exact ⟨hx, hpadded, by rw [List.length_append]; exact hroom⟩
      · rintro ⟨-, hout, hroom⟩
        obtain rfl := hpadded.unique hout
        rw [List.length_append] at hroom
        rw [if_pos hroom]
    · rw [hfull]
      constructor
      · intro h
        cases h
      · rintro ⟨-, ⟨-, hle, -⟩, hroom⟩
        rw [List.nil_append] at hsize
        omega
  · have hany : (x.any fun v => v < -2047 ∨ 2047 < v) = true := by
      obtain ⟨v, hv⟩ := not_forall.mp hx
      obtain ⟨hmem, hbad⟩ := Classical.not_imp.mp hv
      refine List.any_eq_true.mpr ⟨v, hmem, decide_eq_true ?_⟩
      unfold CompValid at hbad
      omega
    rw [if_pos hany]
    constructor
    · intro h
      cases h
    · rintro ⟨hall, -⟩
      exact absurd hall hx

/-- What is still to be read. -/
def pending (memory : List UInt8) (maxInLen : ℕ) (s : ℕ × UInt32 × ℕ) : List Bool :=
  bits s.2.2 s.2.1.toNat ++ byteBits ((memory.take maxInLen).drop s.1)

variable {memory : List UInt8} {maxInLen v : ℕ} {acc : UInt32} {len : ℕ} {b : UInt8}
  {s t : ℕ × UInt32 × ℕ} {tail : List Bool}

theorem nextByte_eq_ok_iff :
    nextByte memory maxInLen v = .ok b ↔ (memory.take maxInLen)[v]? = some b := by
  unfold nextByte
  split_ifs with hle
  · rw [List.getElem?_eq_none (by rw [List.length_take]; omega)]
    constructor <;> intro h <;> cases h
  · rw [List.getElem?_take_of_lt (by omega)]
    cases memory[v]? with
    | none => constructor <;> intro h <;> cases h
    | some c => rw [Except.ok.injEq, Option.some.injEq]

/-- A byte comes from the memory into the accumulator. -/
theorem pending_pull (acc : UInt32) (hlen : len ≤ 24) (h : (memory.take maxInLen)[v]? = some b) :
    pending memory maxInLen (v + 1, acc <<< 8 ||| b.toUInt32, len + 8) =
      bits len acc.toNat ++ (bits 8 b.toNat ++ byteBits ((memory.take maxInLen).drop (v + 1))) ∧
    pending memory maxInLen (v, acc, len) =
      bits len acc.toNat ++ (bits 8 b.toNat ++ byteBits ((memory.take maxInLen).drop (v + 1))) := by
  obtain ⟨hv, hb⟩ := List.getElem?_eq_some_iff.mp h
  unfold pending
  dsimp only
  rw [bits_pull b hlen, List.append_assoc, List.drop_eq_getElem_cons hv, hb, byteBits_cons]
  exact ⟨rfl, rfl⟩

theorem testBit_acc {k : ℕ} (hk : k < 32) :
    decide (acc >>> UInt32.ofNat k &&& 1 ≠ 0) = acc.toNat.testBit k := by
  have hmask : (acc >>> UInt32.ofNat k &&& 1).toNat = (acc.toNat >>> k) % 2 := by
    rw [UInt32.toNat_and, UInt32.toNat_shiftRight, toNat_ofNat_lt hk, UInt32.toNat_one,
      Nat.and_one_is_mod]
  rw [Nat.testBit_eq_decide_div_mod_eq, ← Nat.shiftRight_eq_div_pow, decide_eq_decide, Ne,
    ← UInt32.toNat_inj, hmask, UInt32.toNat_zero]
  omega

/-- Less than a byte waits in the accumulator, and the next one is that of the index. -/
def At (memory : List UInt8) (maxInLen : ℕ) (s : ℕ × UInt32 × ℕ) : Prop :=
  s.2.2 < 8 ∧ s.1 ≤ (memory.take maxInLen).length

theorem lt_of_nextByte (h : nextByte memory maxInLen v = .ok b) :
    v < (memory.take maxInLen).length :=
  (List.getElem?_eq_some_iff.mp (nextByte_eq_ok_iff.mp h)).1

theorem refill_sound (hat : At memory maxInLen s) (h : refill memory maxInLen s = .ok t) :
    pending memory maxInLen s = pending memory maxInLen t ∧ 0 < t.2.2 ∧ t.2.2 ≤ 8 ∧
      t.1 ≤ (memory.take maxInLen).length := by
  obtain ⟨v, acc, len⟩ := s
  obtain ⟨hlen, hv⟩ := hat
  dsimp only at hlen hv
  unfold refill at h
  dsimp only at h
  split_ifs at h with hzero
  · obtain ⟨b, hb, h⟩ := bind_eq_ok_iff.mp h
    cases h
    subst hzero
    obtain ⟨hpull, hbefore⟩ :=
      pending_pull acc (Nat.zero_le 24) (nextByte_eq_ok_iff.mp hb)
    exact ⟨hbefore.trans hpull.symm, by norm_num, Nat.le_refl 8, lt_of_nextByte hb⟩
  · cases h
    exact ⟨rfl, Nat.pos_of_ne_zero hzero, hlen.le, hv⟩

/-- The next bit comes from the accumulator, or from the next byte if that is empty. -/
theorem compBit_sound {one : Bool} (hat : At memory maxInLen s)
    (h : compBit memory maxInLen s = .ok (one, t)) :
    pending memory maxInLen s = one :: pending memory maxInLen t ∧ At memory maxInLen t := by
  obtain ⟨⟨v, acc, len⟩, hfill, h⟩ := bind_eq_ok_iff.mp h
  cases h
  obtain ⟨hsame, hpos, hle, hv⟩ := refill_sound hat hfill
  dsimp only at hpos hle hv ⊢
  obtain ⟨k, rfl⟩ : ∃ k, len = k + 1 := ⟨len - 1, by omega⟩
  have hless : k + 1 - 1 < 8 := by omega
  refine ⟨?_, hless, hv⟩
  rw [hsame]
  change bits (k + 1) acc.toNat ++ _ = decide (acc >>> UInt32.ofNat k &&& 1 ≠ 0) :: _
  rw [testBit_acc (by omega)]
  rfl

theorem compBit_complete {one : Bool} (hat : At memory maxInLen s)
    (h : pending memory maxInLen s = one :: tail) :
    ∃ t, compBit memory maxInLen s = .ok (one, t) := by
  obtain ⟨v, acc, len⟩ := s
  have hfill : ∃ r, refill memory maxInLen (v, acc, len) = .ok r := by
    unfold refill
    dsimp only
    split_ifs with hzero
    · subst hzero
      cases hb : (memory.take maxInLen)[v]? with
      | none =>
        unfold pending at h
        rw [List.drop_eq_nil_of_le (List.getElem?_eq_none_iff.mp hb)] at h
        cases h
      | some b => exact ⟨_, bind_eq_ok_iff.mpr ⟨b, nextByte_eq_ok_iff.mpr hb, rfl⟩⟩
    · exact ⟨_, rfl⟩
  obtain ⟨r, hr⟩ := hfill
  have hbit : compBit memory maxInLen (v, acc, len) = .ok (decide (r.2.1 >>>
      UInt32.ofNat (r.2.2 - 1) &&& 1 ≠ 0), r.1, r.2.1, r.2.2 - 1) :=
    bind_eq_ok_iff.mpr ⟨r, hr, rfl⟩
  have hsame := (compBit_sound hat hbit).1
  rw [h] at hsame
  obtain ⟨hone, -⟩ := List.cons.inj hsame
  rw [← hone] at hbit
  exact ⟨_, hbit⟩

theorem bits_succ_one (zeros : ℕ) : bits (zeros + 2) 1 = false :: bits (zeros + 1) 1 := by
  rw [bits, Nat.testBit_lt_two_pow (Nat.one_lt_two_pow (Nat.succ_ne_zero zeros))]

theorem compUnary_sound {k m m' : ℕ} (hat : At memory maxInLen s) (hm : m ≤ 2047)
    (h : compUnary memory maxInLen k s m = .ok (m', t)) :
    ∃ zeros, m' = m + 128 * zeros ∧ m' ≤ 2047 ∧
      pending memory maxInLen s = bits (zeros + 1) 1 ++ pending memory maxInLen t ∧
      At memory maxInLen t := by
  induction k generalizing s m with
  | zero => cases h
  | succ k ih =>
    obtain ⟨⟨one, u⟩, hbit, h⟩ := bind_eq_ok_iff.mp h
    obtain ⟨hpending, hu⟩ := compBit_sound hat hbit
    cases one with
    | true =>
      cases h
      exact ⟨0, rfl, hm, hpending, hu⟩
    | false =>
      dsimp only at h
      rw [if_neg Bool.false_ne_true] at h
      split_ifs at h with hbig
      obtain ⟨zeros, hm', hle, hrest, ht⟩ := ih hu (by omega) h
      refine ⟨zeros + 1, by omega, hle, ?_, ht⟩
      rw [hpending, hrest, bits_succ_one, List.cons_append]

theorem compUnary_complete {k m zeros : ℕ} (hat : At memory maxInLen s) (hk : zeros < k)
    (hm : m + 128 * zeros ≤ 2047) (h : pending memory maxInLen s = bits (zeros + 1) 1 ++ tail) :
    ∃ t, compUnary memory maxInLen k s m = .ok (m + 128 * zeros, t) := by
  induction k generalizing s m zeros with
  | zero => cases hk
  | succ k ih =>
    cases zeros with
    | zero =>
      obtain ⟨t, hbit⟩ := compBit_complete hat h
      exact ⟨t, bind_eq_ok_iff.mpr ⟨_, hbit, rfl⟩⟩
    | succ zeros =>
      rw [bits_succ_one, List.cons_append] at h
      obtain ⟨u, hbit⟩ := compBit_complete hat h
      obtain ⟨hpending, hu⟩ := compBit_sound hat hbit
      rw [h] at hpending
      obtain ⟨t, ht⟩ := ih hu (Nat.succ_lt_succ_iff.mp hk) (m := m + 128) (by omega)
        (List.cons.inj hpending).2.symm
      refine ⟨t, bind_eq_ok_iff.mpr ⟨_, hbit, ?_⟩⟩
      dsimp only
      rw [if_neg Bool.false_ne_true, if_neg (by omega), ht]
      congr 2
      omega

/-- The first byte of a value: its sign and seven bits. -/
theorem bits_eight (w : UInt32) :
    bits 8 w.toNat = decide (w &&& 128 ≠ 0) :: bits 7 (w &&& 127).toNat := by
  have hsign : decide (w &&& 128 ≠ 0) = w.toNat.testBit 7 := by
    have hmask : (w &&& 128).toNat = (w.toNat.testBit 7).toNat * 128 := by
      rw [UInt32.toNat_and]
      exact Nat.and_two_pow w.toNat 7
    have hiff : w &&& 128 ≠ 0 ↔ w.toNat.testBit 7 = true := by
      rw [Ne, ← UInt32.toNat_inj, hmask, UInt32.toNat_zero]
      cases w.toNat.testBit 7 <;> simp
    rw [Bool.eq_iff_iff, decide_eq_true_iff]
    exact hiff
  rw [hsign, toNat_and_low, bits_mod (Nat.le_refl 7)]
  rfl

theorem compCode_eq {x : ℤ} {one : Bool} {m : ℕ} (hx : x = if one then -(m : ℤ) else m)
    (hzero : ¬ (one = true ∧ m = 0)) :
    compCode x = one :: bits 7 m ++ bits (m / 128 + 1) 1 := by
  cases one with
  | true =>
    have hpos : m ≠ 0 := fun h => hzero ⟨rfl, h⟩
    obtain rfl : x = -(m : ℤ) := hx
    unfold compCode
    rw [if_pos (by omega), Int.natAbs_neg, Int.natAbs_natCast]
    rfl
  | false =>
    obtain rfl : x = (m : ℤ) := hx
    unfold compCode
    rw [if_neg (by omega), Int.natAbs_natCast]
    rfl

theorem compValid_of_le {x : ℤ} {one : Bool} {m : ℕ} (hx : x = if one then -(m : ℤ) else m)
    (hm : m ≤ 2047) : CompValid x := by
  unfold CompValid
  cases one with
  | true =>
    obtain rfl : x = -(m : ℤ) := hx
    omega
  | false =>
    obtain rfl : x = (m : ℤ) := hx
    omega

/-- What the first byte of a value leaves of the stream. -/
theorem pending_first (acc : UInt32) (hlen : len < 8) (hb : nextByte memory maxInLen v = .ok b) :
    pending memory maxInLen (v, acc, len) =
      bits 8 ((acc <<< 8 ||| b.toUInt32) >>> UInt32.ofNat len).toNat ++
        pending memory maxInLen (v + 1, acc <<< 8 ||| b.toUInt32, len) := by
  have hroom : len ≤ 24 := by omega
  obtain ⟨hpull, hbefore⟩ := pending_pull acc hroom (nextByte_eq_ok_iff.mp hb)
  rw [hbefore, ← hpull]
  unfold pending
  dsimp only
  rw [Nat.add_comm len 8, bits_pop (by omega), List.append_assoc]

theorem compValue_sound {x : ℤ} (hat : At memory maxInLen s)
    (h : compValue memory maxInLen s = .ok (x, t)) :
    CompValid x ∧ pending memory maxInLen s = compCode x ++ pending memory maxInLen t ∧
      At memory maxInLen t := by
  obtain ⟨v, acc, len⟩ := s
  obtain ⟨hlen, -⟩ := hat
  dsimp only at hlen
  obtain ⟨b, hb, h⟩ := bind_eq_ok_iff.mp h
  obtain ⟨w, hw⟩ : ∃ w, w = (acc <<< 8 ||| b.toUInt32) >>> UInt32.ofNat len := ⟨_, rfl⟩
  have hfirst := pending_first acc hlen hb
  rw [← hw] at hfirst
  dsimp only at h
  rw [← hw] at h
  obtain ⟨⟨m, u⟩, hunary, h⟩ := bind_eq_ok_iff.mp h
  dsimp only at h
  by_cases hzero : w &&& 128 ≠ 0 ∧ m = 0
  · rw [if_pos hzero] at h
    cases h
  rw [if_neg hzero] at h
  obtain ⟨hx, rfl⟩ := Prod.mk.inj (Except.ok.inj h)
  have hlow : (w &&& 127).toNat < 2 ^ 7 := by
    rw [toNat_and_low]
    exact Nat.mod_lt _ (Nat.two_pow_pos 7)
  obtain ⟨zeros, hm, hle, hrest, hu⟩ := compUnary_sound (s := (v + 1, acc <<< 8 ||| b.toUInt32, len))
    ⟨hlen, lt_of_nextByte hb⟩ (by omega) hunary
  have hsigned : x = if decide (w &&& 128 ≠ 0) then -(m : ℤ) else m := by
    rw [← hx]
    simp only [decide_eq_true_eq]
  have hpositive : ¬ (decide (w &&& 128 ≠ 0) = true ∧ m = 0) := by
    rwa [decide_eq_true_iff]
  refine ⟨compValid_of_le hsigned hle, ?_, hu⟩
  have hdiv : m / 128 = zeros := by omega
  have hmod : m % 2 ^ 7 = (w &&& 127).toNat := by omega
  rw [hfirst, bits_eight, hrest, compCode_eq hsigned hpositive, hdiv, ← bits_mod (Nat.le_refl 7) m,
    hmod, List.cons_append, List.cons_append, List.cons_append, List.append_assoc]

theorem compValue_complete {x : ℤ} (hat : At memory maxInLen s) (hx : CompValid x)
    (h : pending memory maxInLen s = compCode x ++ tail) :
    ∃ t, compValue memory maxInLen s = .ok (x, t) := by
  obtain ⟨v, acc, len⟩ := s
  obtain ⟨hlen, -⟩ := hat
  dsimp only at hlen
  obtain ⟨b, hb⟩ : ∃ b, nextByte memory maxInLen v = .ok b := by
    cases hb : (memory.take maxInLen)[v]? with
    | none =>
      have hsize := congrArg List.length h
      unfold pending at hsize
      rw [List.drop_eq_nil_of_le (List.getElem?_eq_none_iff.mp hb), byteBits_nil, List.append_nil,
        length_bits, List.length_append, length_compCode] at hsize
      dsimp only at hsize
      omega
    | some b => exact ⟨b, nextByte_eq_ok_iff.mpr hb⟩
  obtain ⟨w, hw⟩ : ∃ w, w = (acc <<< 8 ||| b.toUInt32) >>> UInt32.ofNat len := ⟨_, rfl⟩
  have hfirst := pending_first acc hlen hb
  have hcode : compCode x = (decide (x < 0) :: bits 7 x.natAbs) ++ bits (x.natAbs / 128 + 1) 1 := by
    unfold compCode
    by_cases hneg : x < 0
    · rw [if_pos hneg, decide_eq_true hneg]
      rfl
    · rw [if_neg hneg, decide_eq_false hneg]
      rfl
  rw [← hw, h, bits_eight, hcode, List.append_assoc] at hfirst
  obtain ⟨hhead, hrest⟩ := List.append_inj hfirst rfl
  obtain ⟨hsign, hseven⟩ := List.cons.inj hhead
  have hlow : (w &&& 127).toNat = x.natAbs % 2 ^ 7 := by
    rw [toNat_and_low]
    refine bits_injective (Nat.mod_lt _ (Nat.two_pow_pos 7)) (Nat.mod_lt _ (Nat.two_pow_pos 7)) ?_
    rw [bits_mod (Nat.le_refl 7) x.natAbs, hseven, toNat_and_low]
  obtain ⟨hlo, hhi⟩ := hx
  have hdiv : x.natAbs % 2 ^ 7 + 128 * (x.natAbs / 128) = x.natAbs := Nat.mod_add_div _ _
  obtain ⟨t, ht⟩ := compUnary_complete (s := (v + 1, acc <<< 8 ||| b.toUInt32, len))
    (m := x.natAbs % 2 ^ 7) (k := 16) ⟨hlen, lt_of_nextByte hb⟩ (by omega) (by omega) hrest.symm
  have hsame : w &&& 128 ≠ 0 ↔ x < 0 := decide_eq_decide.mp hsign.symm
  refine ⟨t, bind_eq_ok_iff.mpr ⟨b, hb, ?_⟩⟩
  dsimp only
  rw [← hw, hlow]
  refine bind_eq_ok_iff.mpr ⟨_, ht, ?_⟩
  dsimp only
  rw [hdiv, if_neg (by rw [hsame]; omega)]
  congr 2
  by_cases hneg : x < 0
  · rw [if_pos (hsame.mpr hneg)]
    omega
  · rw [if_neg (fun hset => hneg (hsame.mp hset))]
    omega

theorem compLoop_sound {n : ℕ} {x : List ℤ} (hat : At memory maxInLen s)
    (h : compLoop memory maxInLen n s = .ok (x, t)) :
    x.length = n ∧ (∀ v ∈ x, CompValid v) ∧
      pending memory maxInLen s = compBits x ++ pending memory maxInLen t ∧ At memory maxInLen t := by
  induction n generalizing s x with
  | zero =>
    cases h
    exact ⟨rfl, fun v hv => absurd hv List.not_mem_nil, rfl, hat⟩
  | succ n ih =>
    obtain ⟨⟨v, u⟩, hvalue, h⟩ := bind_eq_ok_iff.mp h
    obtain ⟨⟨rest, t'⟩, hloop, h⟩ := bind_eq_ok_iff.mp h
    cases h
    obtain ⟨hv, hpending, hu⟩ := compValue_sound hat hvalue
    obtain ⟨hlength, hvalid, hrest, ht⟩ := ih hu hloop
    refine ⟨congrArg (· + 1) hlength, List.forall_mem_cons.mpr ⟨hv, hvalid⟩, ?_, ht⟩
    rw [hpending, hrest, compBits_cons, List.append_assoc]

theorem compLoop_complete {x : List ℤ} (hat : At memory maxInLen s) (hx : ∀ v ∈ x, CompValid v)
    (h : pending memory maxInLen s = compBits x ++ tail) :
    ∃ t, compLoop memory maxInLen x.length s = .ok (x, t) := by
  induction x generalizing s with
  | nil => exact ⟨s, rfl⟩
  | cons v x ih =>
    obtain ⟨hv, hx⟩ := List.forall_mem_cons.mp hx
    rw [compBits_cons, List.append_assoc] at h
    obtain ⟨u, hvalue⟩ := compValue_complete hat hv h
    obtain ⟨-, hpending, hu⟩ := compValue_sound hat hvalue
    rw [h] at hpending
    obtain ⟨t, hloop⟩ := ih hu hx (List.append_cancel_left hpending).symm
    exact ⟨t, bind_eq_ok_iff.mpr ⟨_, hvalue, bind_eq_ok_iff.mpr ⟨_, hloop, rfl⟩⟩⟩

/-- The loop from the start of the input. -/
theorem compLoop_start {n : ℕ} {x : List ℤ} (h : compLoop memory maxInLen n (0, 0, 0) = .ok (x, t)) :
    x.length = n ∧ (∀ v ∈ x, CompValid v) ∧ t.2.2 < 8 ∧ t.1 ≤ (memory.take maxInLen).length ∧
      byteBits ((memory.take maxInLen).take t.1) = compBits x ++ bits t.2.2 t.2.1.toNat := by
  have hstart : At memory maxInLen (0, 0, 0) := ⟨by norm_num, Nat.zero_le _⟩
  obtain ⟨hlength, hvalid, hpending, hlen, hle⟩ := compLoop_sound hstart h
  refine ⟨hlength, hvalid, hlen, hle, ?_⟩
  have hall : pending memory maxInLen (0, 0, 0) = byteBits ((memory.take maxInLen).take t.1) ++
      byteBits ((memory.take maxInLen).drop t.1) := by
    rw [← byteBits_append, List.take_append_drop]
    rfl
  rw [hall] at hpending
  unfold pending at hpending
  rw [← List.append_assoc] at hpending
  exact List.append_cancel_right hpending

/-- The values of a signature are read from what is written for them only. -/
theorem compDecode_eq_ok_iff {n size : ℕ} {x : List ℤ} :
    compDecode n maxInLen memory = .ok (x, size) ↔ x.length = n ∧ size ≤ memory.length ∧
      compEncode maxInLen x = .ok (memory.take size) := by
  rw [compEncode_eq_ok_iff]
  constructor
  · intro h
    obtain ⟨⟨x', v, acc, len⟩, hloop, h⟩ := bind_eq_ok_iff.mp h
    dsimp only at h
    split_ifs at h with hzero
    cases h
    obtain ⟨hlength, hvalid, hlen, hle, hbits⟩ := compLoop_start hloop
    dsimp only at hlen hle hbits
    rw [List.length_take] at hle
    have hpad := (and_mask_eq_zero_iff (by omega)).mp (not_not.mp hzero)
    have htake : (memory.take size).length = size := List.length_take_of_le (by omega)
    rw [List.take_take, Nat.min_eq_left (by omega), hpad] at hbits
    have hcount := congrArg List.length hbits
    rw [length_byteBits, htake, List.length_append, List.length_replicate] at hcount
    refine ⟨hlength, by omega, hvalid, ⟨?_, by omega, by omega⟩, by omega⟩
    rw [hbits, htake]
    congr 2
    omega
  · rintro ⟨hlength, hsize, hvalid, ⟨hbits, hle, hlt⟩, hmax⟩
    have htake : (memory.take size).length = size := List.length_take_of_le hsize
    rw [htake] at hbits hle hlt hmax
    have hstart : At memory maxInLen (0, 0, 0) := ⟨by norm_num, Nat.zero_le _⟩
    have hsplit : (memory.take maxInLen).take size = memory.take size := by
      rw [List.take_take, Nat.min_eq_left hmax]
    have hfront : pending memory maxInLen (0, 0, 0) = compBits x ++
        (List.replicate (8 * size - (compBits x).length) false ++
          byteBits ((memory.take maxInLen).drop size)) := by
      rw [← List.append_assoc, ← hbits, ← hsplit, ← byteBits_append, List.take_append_drop]
      rfl
    obtain ⟨⟨v, acc, len⟩, hloop⟩ := compLoop_complete hstart hvalid hfront
    rw [hlength] at hloop
    obtain ⟨-, -, hlen, hv, hread⟩ := compLoop_start hloop
    dsimp only at hlen hv hread
    rw [List.length_take] at hv
    have hcount := congrArg List.length hread
    rw [length_byteBits, List.length_take, List.length_take, List.length_append, length_bits]
      at hcount
    obtain rfl : v = size := by omega
    rw [hsplit, hbits] at hread
    have hpad := List.append_cancel_left hread.symm
    have hzeros := congrArg List.length hpad
    rw [length_bits, List.length_replicate] at hzeros
    refine bind_eq_ok_iff.mpr ⟨_, hloop, ?_⟩
    dsimp only
    rw [← hzeros] at hpad
    rw [if_neg (not_not.mpr ((and_mask_eq_zero_iff (by omega)).mpr hpad))]
    rfl

/-- Each decoder accepts exactly what its encoder writes for the values that it returns. -/
theorem decoders_canonical (n maxLen size : ℕ) (buf : List UInt8) :
    (∀ x, modqDecode n maxLen buf = .ok (x, size) ↔
      x.length = n ∧ size ≤ buf.length ∧ modqEncode maxLen x = .ok (buf.take size)) ∧
    (∀ (bits : Fin 8) (x : List Int8), trimI8Decode n (bits + 1) maxLen buf = .ok (x, size) ↔
      x.length = n ∧ size ≤ buf.length ∧
        trimI8Encode (bits + 1) maxLen x = .ok (buf.take size)) ∧
    ∀ x, compDecode n maxLen buf = .ok (x, size) ↔
      x.length = n ∧ size ≤ buf.length ∧ compEncode maxLen x = .ok (buf.take size) := by
  refine ⟨fun x => modqDecode_eq_ok_iff, fun bits x => ?_, fun x => compDecode_eq_ok_iff⟩
  have hlt := bits.isLt
  exact trimI8Decode_eq_ok_iff (Nat.succ_pos _) (by omega)

end Values

end OrionNetwork.Falcon
