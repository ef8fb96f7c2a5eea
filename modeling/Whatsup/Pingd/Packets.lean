import Whatsup.CLib.EndAround
import Whatsup.Pingd.EndToEnd

/-!
# The packets that pingd sends

`_icmp_ping_build` writes a ping of eight bytes, and `_in_cksum` its checksum: the complement of the
one's complement sum of the words of 16 bits. The words are read, and the checksum is written, in
the byte order of the machine, which the source calls no issue: `bytes_inCksum` shows that the bytes
of the checksum are the same in both orders. `inCksum_stored` is what the checksum is for, at any
even place of any packet: the checksum of the packet with it is zero, on any machine.
`inCksum_eq_zero_iff_stored` says which words a receiver accepts there.

`pingdRun_packets` is about whole runs: the sweep of a number sends to every host in order the
packet with that sequence number, which a receiver accepts.
-/

set_option autoImplicit false
set_option relaxedAutoImplicit false

namespace Whatsup

open CLib

/-! ### Words and bytes -/

/-- The byte order of a machine. -/
inductive ByteOrder
  | little
  | big
deriving DecidableEq

/-- The `uint16_t` in two bytes of memory. -/
def ByteOrder.word : ByteOrder → UInt8 → UInt8 → ℕ
  | .little, b0, b1 => b0.toNat + 256 * b1.toNat
  | .big, b0, b1 => 256 * b0.toNat + b1.toNat

/-- The two bytes of memory with a `uint16_t`. -/
def ByteOrder.bytes : ByteOrder → ℕ → List UInt8
  | .little, word => [UInt8.ofNat (word % 256), UInt8.ofNat (word / 256)]
  | .big, word => [UInt8.ofNat (word / 256), UInt8.ofNat (word % 256)]

/-! ### The checksum -/

/-- The loop of `_in_cksum`, with the odd byte behind it: that byte goes into the first byte of a
`uint16_t`. -/
def inCksumLoop (order : ByteOrder) : List UInt8 → ℕ → ℕ
  | b0 :: b1 :: rest, sum => inCksumLoop order rest (toUint ((sum : ℤ) + order.word b0 b1))
  | [b0], sum => toUint ((sum : ℤ) + order.word b0 0)
  | [], sum => sum

/-- `_in_cksum`, for a buffer of at least one byte. -/
def inCksum (order : ByteOrder) (addr : List UInt8) : ℕ :=
  let sum := inCksumLoop order addr 0
  let sum := toUint ((sum / 65536 + sum % 65536 : ℕ) : ℤ)
  let sum := toUint ((sum + sum / 65536 : ℕ) : ℤ)
  65535 - sum % 65536

/-- The bytes that `_icmp_ping_build` writes for a sequence number: type, code, checksum,
identifier, sequence number. -/
def icmpPingPacket (order : ByteOrder) (sequenceNumber : ℕ) : List UInt8 :=
  let buf := [8, 0] ++ [0, 0] ++ [0, 0] ++ order.bytes sequenceNumber
  [8, 0] ++ order.bytes (inCksum order buf) ++ [0, 0] ++ order.bytes sequenceNumber

/-! ### What is summed up -/

/-- The sum of the words of a buffer. -/
def wordSum (order : ByteOrder) : List UInt8 → ℕ
  | b0 :: b1 :: rest => order.word b0 b1 + wordSum order rest
  | [b0] => order.word b0 0
  | [] => 0

/-- A word has 16 bits. -/
theorem ByteOrder.word_le (order : ByteOrder) (b0 b1 : UInt8) : order.word b0 b1 ≤ 65535 := by
  have h0 := b0.toNat_lt
  have h1 := b1.toNat_lt
  cases order <;> simp only [ByteOrder.word] <;> omega

/-- Assumes: a number of 16 bits. Its bytes are read back. -/
theorem ByteOrder.word_bytes (order : ByteOrder) {word : ℕ} (h : word ≤ 65535) :
    ∃ b0 b1, order.bytes word = [b0, b1] ∧ order.word b0 b1 = word := by
  cases order with
  | little =>
    refine ⟨_, _, rfl, ?_⟩
    rw [ByteOrder.word, UInt8.toNat_ofNat', UInt8.toNat_ofNat']
    omega
  | big =>
    refine ⟨_, _, rfl, ?_⟩
    rw [ByteOrder.word, UInt8.toNat_ofNat', UInt8.toNat_ofNat']
    omega

/-- The words of a buffer fit into so many bits as there are words times 16. -/
theorem wordSum_le (order : ByteOrder) (addr : List UInt8) : wordSum order addr ≤
    65535 * ((addr.length + 1) / 2) := by
  induction addr using wordSum.induct with
  | case1 b0 b1 rest ih =>
    have hword := order.word_le b0 b1
    rw [wordSum, List.length_cons, List.length_cons]
    omega
  | case2 b0 =>
    have hword := order.word_le b0 0
    rw [wordSum, List.length_singleton]
    omega
  | case3 => exact Nat.zero_le _

/-- Assumes: a front of an even length. The words of the front are summed up apart. -/
theorem wordSum_append (order : ByteOrder) (front back : List UInt8)
    (heven : front.length % 2 = 0) :
    wordSum order (front ++ back) = wordSum order front + wordSum order back := by
  induction front using wordSum.induct with
  | case1 b0 b1 rest ih =>
    rw [List.length_cons, List.length_cons] at heven
    rw [List.cons_append, List.cons_append, wordSum, wordSum, ih (by omega), Nat.add_assoc]
  | case2 b0 =>
    rw [List.length_singleton] at heven
    omega
  | case3 => rw [List.nil_append, wordSum, Nat.zero_add]

/-- Assumes: words that fit into 32 bits, with what is summed up already. The loop sums them up. -/
theorem inCksumLoop_eq (order : ByteOrder) (addr : List UInt8) :
    ∀ sum : ℕ, sum + wordSum order addr < 4294967296 → inCksumLoop order addr sum =
      sum + wordSum order addr := by
  induction addr using wordSum.induct with
  | case1 b0 b1 rest ih =>
    intro sum h
    rw [wordSum] at h ⊢
    rw [inCksumLoop, ← Nat.cast_add, toUint_natCast (by omega), ih _ (by omega), Nat.add_assoc]
  | case2 b0 =>
    intro sum h
    rw [wordSum] at h ⊢
    rw [inCksumLoop, ← Nat.cast_add, toUint_natCast h]
  | case3 => exact fun sum _ ↦ rfl

/-- Assumes: a buffer of at most 131072 bytes. The checksum is the complement of the end-around sum
of the words. -/
theorem inCksum_eq (order : ByteOrder) {addr : List UInt8} (hlength : addr.length ≤ 131072) :
    inCksum order addr = 65535 - endAround 65535 (wordSum order addr) := by
  have hsum := wordSum_le order addr
  have hbound : wordSum order addr < 65536 * 65536 := by omega
  have hfold := @fold_eq_endAround 65535 _ hbound
  unfold inCksum
  rw [inCksumLoop_eq order addr 0 (by omega), Nat.zero_add]
  generalize wordSum order addr = sum at hbound hfold ⊢
  have hfirst : toUint ((sum / 65536 + sum % 65536 : ℕ) : ℤ) = sum / 65536 + sum % 65536 :=
    toUint_natCast (by omega)
  have hsecond :
    toUint ((sum / 65536 + sum % 65536 + (sum / 65536 + sum % 65536) / 65536 : ℕ) : ℤ) =
      sum / 65536 + sum % 65536 + (sum / 65536 + sum % 65536) / 65536 := toUint_natCast (by omega)
  simp only [hfirst, hsecond]
  rw [← hfold]

/-! ### The byte order -/

/-- The word in the other byte order is congruent to 256 times the word. -/
theorem wordSum_big (addr : List UInt8) : wordSum .big addr ≡ 256 * wordSum .little addr
    [MOD 65535] := by
  have hword : ∀ b0 b1, ByteOrder.word .big b0 b1 ≡ 256 * ByteOrder.word .little b0 b1
      [MOD 65535] := fun b0 b1 ↦ by
    rw [ByteOrder.word, ByteOrder.word, Nat.ModEq]
    omega
  induction addr using wordSum.induct with
  | case1 b0 b1 rest ih =>
    rw [wordSum, wordSum, Nat.mul_add]
    exact (hword b0 b1).add ih
  | case2 b0 => exact hword b0 0
  | case3 => rfl

/-- The sums in both byte orders are zero together. -/
theorem wordSum_eq_zero_iff (addr : List UInt8) : wordSum .big addr = 0 ↔
    wordSum .little addr = 0 := by
  induction addr using wordSum.induct with
  | case1 b0 b1 rest ih =>
    rw [wordSum, wordSum, ByteOrder.word, ByteOrder.word]
    omega
  | case2 b0 =>
    rw [wordSum, wordSum, ByteOrder.word, ByteOrder.word]
    simp
  | case3 => exact Iff.rfl

/-- Assumes: a low byte. It and the high byte are found in their number. -/
theorem split_bytes (high : ℕ) {low : ℕ} (h : low ≤ 255) : (256 * high + low) % 256 = low ∧
    (256 * high + low) / 256 = high := by
  omega

/-- Assumes: a buffer of at most 131072 bytes. The bytes of its checksum do not depend on the byte
order of the machine. -/
theorem bytes_inCksum {addr : List UInt8} (hlength : addr.length ≤ 131072)
    (order order' : ByteOrder) :
    order.bytes (inCksum order addr) = order'.bytes (inCksum order' addr) := by
  -- swapping the bytes of a word multiplies it by 256 modulo 65535
  have hswap : endAround 65535 (wordSum .big addr) =
      256 * (endAround 65535 (wordSum .little addr) % 256) +
          endAround 65535 (wordSum .little addr) / 256 := by
    have hle := endAround_le (show 0 < 65535 by decide) (wordSum .little addr)
    have hzero : endAround 65535 (wordSum .little addr) = 0 ↔ wordSum .little addr = 0 :=
      endAround_eq_zero_iff
    have hmod := (endAround_modEq 65535 (wordSum .little addr)).mul_left 256
    generalize endAround 65535 (wordSum .little addr) = value at hle hzero hmod ⊢
    have hvalue : 256 * (value % 256) + value / 256 ≡ 256 * value [MOD 65535] := by
      rw [Nat.ModEq]
      omega
    have hsame := endAround_congr ((wordSum_big addr).trans (hmod.symm.trans hvalue.symm))
      ((wordSum_eq_zero_iff addr).trans (hzero.symm.trans (by omega)))
    rw [hsame, endAround_of_le (by omega)]
  have hboth : ByteOrder.bytes .little (inCksum .little addr) =
      ByteOrder.bytes .big (inCksum .big addr) := by
    have hle := endAround_le (show 0 < 65535 by decide) (wordSum .little addr)
    rw [inCksum_eq .little hlength, inCksum_eq .big hlength, hswap, ByteOrder.bytes,
      ByteOrder.bytes]
    generalize endAround 65535 (wordSum .little addr) = value at hle ⊢
    have hhigh : value / 256 ≤ 255 := by omega
    have hlow : value % 256 ≤ 255 := by omega
    have hvalue := Nat.div_add_mod value 256
    generalize value / 256 = high at hhigh hvalue ⊢
    generalize value % 256 = low at hlow hvalue ⊢
    rw [← hvalue, show 65535 - (256 * high + low) = 256 * (255 - high) + (255 - low) by omega,
      show 65535 - (256 * low + high) = 256 * (255 - low) + (255 - high) by omega]
    obtain ⟨hmod, hdiv⟩ := split_bytes (255 - high) (Nat.sub_le 255 low)
    obtain ⟨hmod', hdiv'⟩ := split_bytes (255 - low) (Nat.sub_le 255 high)
    rw [hmod, hdiv, hmod', hdiv']
  cases order <;> cases order'
  · rfl
  · exact hboth
  · exact hboth.symm
  · rfl

/-! ### What a receiver finds -/

/-- Assumes: a packet of at most 131072 bytes. Its checksum is zero exactly if its words sum up to a
multiple of 65535 other than zero. -/
theorem inCksum_eq_zero_iff (order : ByteOrder) {addr : List UInt8}
    (hlength : addr.length ≤ 131072) :
    inCksum order addr = 0 ↔ wordSum order addr ≠ 0 ∧ 65535 ∣ wordSum order addr := by
  have hle := endAround_le (show 0 < 65535 by decide) (wordSum order addr)
  rw [inCksum_eq order hlength, ← endAround_eq_self_iff (by decide)]
  omega

/-- Two bytes are those of a number of 16 bits exactly if they are read as that number. -/
theorem ByteOrder.eq_bytes_iff (order : ByteOrder) {word : ℕ} (h : word ≤ 65535) (b0 b1 : UInt8) :
    [b0, b1] = order.bytes word ↔ order.word b0 b1 = word := by
  have h0 := b0.toNat_lt
  have h1 := b1.toNat_lt
  constructor
  · intro hbytes
    obtain ⟨c0, c1, hword, hvalue⟩ := order.word_bytes h
    rw [hword] at hbytes
    obtain ⟨rfl, hrest⟩ := List.cons.inj hbytes
    obtain ⟨rfl, -⟩ := List.cons.inj hrest
    exact hvalue
  · rintro rfl
    have hbyte : ∀ (b : UInt8) (value : ℕ), value = b.toNat → UInt8.ofNat value = b :=
        fun b value hvalue ↦ by
      rw [hvalue, UInt8.ofNat_toNat]
    cases order with
    | little =>
      rw [ByteOrder.bytes, ByteOrder.word, hbyte b0 _ (by omega), hbyte b1 _ (by omega)]
    | big =>
      rw [ByteOrder.bytes, ByteOrder.word, hbyte b0 _ (by omega), hbyte b1 _ (by omega)]

/-- Assumes: a packet of at most 131072 bytes with a word at an even place. Its checksum is zero
exactly if the word is the checksum of the packet with zero in that place, or if that is zero and
all bits of the word are set. -/
theorem inCksum_word_iff (order : ByteOrder) {front back : List UInt8}
    (heven : front.length % 2 = 0) (b0 b1 : UInt8)
    (hlength : (front ++ [0, 0] ++ back).length ≤ 131072) :
    inCksum order (front ++ [b0, b1] ++ back) = 0 ↔
      order.word b0 b1 = inCksum order (front ++ [0, 0] ++ back) ∨
        inCksum order (front ++ [0, 0] ++ back) = 0 ∧ order.word b0 b1 = 65535 := by
  have hsum : ∀ c0 c1, wordSum order (front ++ [c0, c1] ++ back) = wordSum order front +
      wordSum order back + order.word c0 c1 :=
    fun c0 c1 ↦ by
      rw [List.append_assoc, wordSum_append order _ _ heven, List.cons_append, List.cons_append,
        List.nil_append, wordSum]
      omega
  have hlength' : (front ++ [b0, b1] ++ back).length ≤ 131072 := by simpa using hlength
  have hword := order.word_le b0 b1
  have hmod :=
    (endAround_modEq 65535 (wordSum order front + wordSum order back)).add_right (order.word b0 b1)
  have hle := endAround_le (show 0 < 65535 by decide) (wordSum order front + wordSum order back)
  have hpos : endAround 65535 (wordSum order front + wordSum order back) = 0 ↔
      wordSum order front + wordSum order back = 0 :=
    endAround_eq_zero_iff
  rw [inCksum_eq_zero_iff order hlength', inCksum_eq order hlength, hsum, hsum,
    show order.word 0 0 = 0 by cases order <;> rfl,
    Nat.add_zero, Nat.dvd_iff_mod_eq_zero, ← hmod]
  generalize wordSum order front + wordSum order back = sum at hle hpos ⊢
  generalize endAround 65535 sum = value at hle hpos ⊢
  generalize order.word b0 b1 = word at hword ⊢
  have hnonzero : sum + word ≠ 0 ↔ value + word ≠ 0 := by omega
  rw [hnonzero]
  omega

/-- A checksum has 16 bits. -/
theorem inCksum_le (order : ByteOrder) (addr : List UInt8) : inCksum order addr ≤ 65535 :=
  Nat.sub_le _ _

/-- Assumes: a packet of at most 131072 bytes, in which two bytes at an even place are zero. With
its checksum in their place, the checksum is zero on any machine. -/
theorem inCksum_stored (order order' : ByteOrder) {front back : List UInt8}
    (heven : front.length % 2 = 0)
    (hlength : (front ++ [0, 0] ++ back).length ≤ 131072) :
    inCksum order' (front ++ order.bytes (inCksum order (front ++ [0, 0] ++ back)) ++ back) =
      0 := by
  obtain ⟨b0, b1, hbytes, hword⟩ := order'.word_bytes (inCksum_le order' (front ++ [0, 0] ++ back))
  rw [bytes_inCksum hlength order order', hbytes]
  exact (inCksum_word_iff order' heven b0 b1 hlength).mpr (Or.inl hword)

/-- Assumes: a packet of at most 131072 bytes with a word at an even place, and the packet with zero
in that place. On a machine of any byte order the checksum of the packet is zero exactly if the word
is the checksum of the other packet as a machine of any byte order writes it, or if that checksum is
zero and all bits of the word are set. -/
theorem inCksum_eq_zero_iff_stored (order order' : ByteOrder) {front back : List UInt8}
    (heven : front.length % 2 = 0) (b0 b1 : UInt8)
    (hlength : (front ++ [0, 0] ++ back).length ≤ 131072) :
    inCksum order' (front ++ [b0, b1] ++ back) = 0 ↔
      [b0, b1] = order.bytes (inCksum order (front ++ [0, 0] ++ back)) ∨
        inCksum order (front ++ [0, 0] ++ back) = 0 ∧ [b0, b1] = [255, 255] := by
  have hsame := bytes_inCksum hlength order order'
  -- what is zero on one machine is zero on the other
  have hnone : inCksum order (front ++ [0, 0] ++ back) = 0 ↔
      inCksum order' (front ++ [0, 0] ++ back) = 0 := by
    have hzero : ∀ order : ByteOrder, inCksum order (front ++ [0, 0] ++ back) = 0 ↔
        [0, 0] = order.bytes (inCksum order (front ++ [0, 0] ++ back)) := fun order ↦ by
      rw [order.eq_bytes_iff (inCksum_le _ _), show order.word 0 0 = 0 by
        cases order <;> rfl, eq_comm]
    rw [hzero, hzero, hsame]
  have hfull : [b0, b1] = [255, 255] ↔ order'.word b0 b1 = 65535 := by
    rw [← order'.eq_bytes_iff le_rfl]
    cases order' <;> exact Iff.rfl
  rw [hsame, order'.eq_bytes_iff (inCksum_le _ _), hnone, hfull]
  exact inCksum_word_iff order' heven b0 b1 hlength

/-- The checksum of a ping with the sequence number 258, whose two bytes differ. -/
theorem inCksum_eq_zero_iff_stored_ping :
    inCksum .big ([8, 0] ++ [246, 252] ++ [0, 0, 2, 1]) = 0 ↔
      [246, 252] = ByteOrder.bytes .little (inCksum .little ([8, 0] ++ [0, 0] ++ [0, 0, 2, 1])) ∨
        inCksum .little ([8, 0] ++ [0, 0] ++ [0, 0, 2, 1]) = 0 ∧ ([246, 252] : List UInt8) =
          [255, 255] :=
  @inCksum_eq_zero_iff_stored .little .big [8, 0] [0, 0, 2, 1] rfl 246 252 (by decide)

/-! ### The pings of a run -/

/-- The sweeps of a run, in order. -/
def sweeps (outputs : List RoundOutput) : List (List Ping) :=
  outputs.filterMap RoundOutput.pings

/-- The address and the next sequence number of an entry. -/
def PingdInfo.next (info : PingdInfo) : InAddr × ℕ :=
  (info.destaddr, info.sequenceNumber)

/-- A change of the entries that keeps their addresses and sequence numbers. -/
theorem map_next_modify (nodes : List PingdInfo) (i : ℕ) (tv : Timeval) :
    (nodes.modify i fun info ↦ { info with lastReceived := tv }).map PingdInfo.next =
      nodes.map PingdInfo.next := by
  refine List.ext_getElem? fun j ↦ ?_
  rw [List.getElem?_map, List.getElem?_map, List.getElem?_modify]
  cases nodes[j]? with
  | none => rfl
  | some info => by_cases hij : i = j <;> simp [hij, PingdInfo.next]

/-- The last part of a round keeps the addresses and the sequence numbers. -/
theorem pingdServe_next {table table' : PingdNodes} {input : LoopInput} {poll : PollResult}
    {response : Option Response}
    (h : pingdServe table input poll = .ok (table', response)) : table'.nodes.map PingdInfo.next =
      table.nodes.map PingdInfo.next := by
  unfold pingdServe at h
  split_ifs at h with hnone
  · obtain ⟨rfl, -⟩ := Prod.mk.inj (Except.ok.inj h)
    rfl
  · obtain ⟨served, hserve, h⟩ := bind_eq_ok.mp h
    obtain ⟨answer, -, h⟩ := bind_eq_ok.mp h
    obtain ⟨rfl, -⟩ := Prod.mk.inj (Except.ok.inj h)
    unfold servePing at hserve
    split_ifs at hserve with hin
    · unfold receivePing at hserve
      cases hrecv : input.recvfrom with
      | none => simp [hrecv] at hserve
      | some addr =>
        simp only [hrecv] at hserve
        cases hfind : hashFind hashKeyString table.nodesIndex (inetNtoa addr) with
        | none =>
          simp only [hfind] at hserve
          rw [← Except.ok.inj hserve]
        | some i =>
          simp only [hfind] at hserve
          cases hclock : input.gettimeofday with
          | none => simp [hclock] at hserve
          | some tv =>
            simp only [hclock] at hserve
            rw [← Except.ok.inj hserve]
            exact map_next_modify table.nodes i tv
    · rw [← Except.ok.inj hserve]

/-- The first part of a round sends nothing and keeps the entries, or it sends every entry's ping
and counts each on. -/
theorem pingdSweep_pings {pingPeriod : ℕ} {st st' : PingdState} {input : LoopInput} {now : Timeval}
    {pings : Option (List Ping)}
    (h : pingdSweep pingPeriod st input = .ok (st', now, pings)) :
    (pings = none ∧ st'.table.nodes = st.table.nodes) ∨
      (pings = some (st.table.nodes.map fun info ↦ ⟨info.destaddr, info.sequenceNumber⟩) ∧
        st'.table.nodes = st.table.nodes.map fun info ↦
          { info with sequenceNumber := (info.sequenceNumber + 1) % 65536 }) := by
  unfold pingdSweep at h
  cases hnow : input.now with
  | none => simp [hnow] at h
  | some start =>
    simp only [hnow] at h
    split_ifs at h with hlater
    · obtain ⟨⟨sent, nodes⟩, hsend, h⟩ := bind_eq_ok.mp h
      unfold pingdSendPings at hsend
      split_ifs at hsend
      obtain ⟨rfl, rfl⟩ := Prod.mk.inj (Except.ok.inj hsend)
      cases hswept : input.swept with
      | none => simp [hswept] at h
      | some swept =>
        simp only [hswept] at h
        obtain ⟨rfl, hrest⟩ := Prod.mk.inj (Except.ok.inj h)
        obtain ⟨-, rfl⟩ := Prod.mk.inj hrest
        exact Or.inr ⟨rfl, rfl⟩
    · obtain ⟨rfl, hrest⟩ := Prod.mk.inj (Except.ok.inj h)
      obtain ⟨-, rfl⟩ := Prod.mk.inj hrest
      exact Or.inl ⟨rfl, rfl⟩

/-- The pings of a sweep with a number, to addresses in order. -/
def sweepOf (addrs : List InAddr) (k : ℕ) : List Ping :=
  addrs.map fun addr ↦ ⟨addr, k % 65536⟩

/-- The addresses and the sequence numbers of the entries behind so many sweeps. -/
def PingdState.Swept (st : PingdState) (addrs : List InAddr) (k : ℕ) : Prop :=
  st.table.nodes.map PingdInfo.next = addrs.map fun addr ↦ (addr, k % 65536)

/-- Assumes: entries behind so many sweeps. A round makes no sweep, or the next one, and the entries
are behind it then. -/
theorem pingdRound_swept {pingPeriod : ℕ} {st st' : PingdState} {input : LoopInput}
    {output : RoundOutput} {addrs : List InAddr} {k : ℕ}
    (h : st.Swept addrs k) (hround : pingdRound pingPeriod st input = .ok (st', output)) :
    (output.pings = none ∧ st'.Swept addrs k) ∨
      (output.pings = some (sweepOf addrs k) ∧ st'.Swept addrs (k + 1)) := by
  unfold pingdRound at hround
  obtain ⟨⟨swept, now, pings⟩, hsweep, hround⟩ := bind_eq_ok.mp hround
  cases hpoll : input.poll with
  | none => simp [hpoll] at hround
  | some poll =>
    simp only [hpoll] at hround
    obtain ⟨⟨table, response⟩, hserve, hround⟩ := bind_eq_ok.mp hround
    obtain ⟨rfl, rfl⟩ := Prod.mk.inj (Except.ok.inj hround)
    have hkept := pingdServe_next hserve
    rcases pingdSweep_pings hsweep with ⟨rfl, hnodes⟩ | ⟨rfl, hnodes⟩
    · refine Or.inl ⟨rfl, ?_⟩
      unfold PingdState.Swept at h ⊢
      rw [hkept, hnodes, h]
    · have hpings : st.table.nodes.map (fun info ↦ (⟨info.destaddr, info.sequenceNumber⟩ : Ping)) =
          sweepOf addrs k := by
        have hmap := congrArg (List.map fun next : InAddr × ℕ ↦ (⟨next.1, next.2⟩ : Ping)) h
        rw [List.map_map, List.map_map] at hmap
        exact hmap
      refine Or.inr ⟨congrArg some hpings, ?_⟩
      have hmap := congrArg (List.map fun next : InAddr × ℕ ↦ (next.1, (next.2 + 1) % 65536)) h
      rw [List.map_map, List.map_map] at hmap
      unfold PingdState.Swept
      rw [hkept, hnodes, List.map_map]
      refine hmap.trans (List.map_congr_left fun addr _ ↦ ?_)
      change (addr, (k % 65536 + 1) % 65536) = (addr, (k + 1) % 65536)
      rw [Nat.mod_add_mod]

/-- Assumes: entries behind no sweep. The sweeps of a run are numbered from zero on. -/
theorem pingdRun_swept {pingPeriod : ℕ} {st st' : PingdState} {inputs : List LoopInput}
    {outputs : List RoundOutput}
    {addrs : List InAddr} (h : st.Swept addrs 0)
    (hrun : pingdRun pingPeriod st inputs = .ok (st', outputs)) :
    sweeps outputs = (List.range (sweeps outputs).length).map (sweepOf addrs) := by
  have hkept := foldlM_ok (fun (_ : List LoopInput) (reached : PingdState × List RoundOutput) ↦
    reached.1.Swept addrs (sweeps reached.2).length ∧
      sweeps reached.2 = (List.range (sweeps reached.2).length).map (sweepOf addrs)) ?_ []
        (show _ ∧ _ from ⟨h, rfl⟩) hrun
  · exact hkept.2
  · rintro - input ⟨before, outputs⟩ ⟨after, outputs'⟩ ⟨hswept, hsweeps⟩ hstep
    obtain ⟨⟨reached, output⟩, hround, hstep⟩ := bind_eq_ok.mp hstep
    obtain ⟨rfl, rfl⟩ := Prod.mk.inj (Except.ok.inj hstep)
    have happend : sweeps (outputs ++ [output]) = sweeps outputs ++ output.pings.toList := by
      unfold sweeps
      rw [List.filterMap_append, List.filterMap_cons]
      cases output.pings <;> rfl
    rcases pingdRound_swept hswept hround with ⟨hpings, hnext⟩ | ⟨hpings, hnext⟩
    · rw [hpings, Option.toList_none, List.append_nil] at happend
      simp only [happend]
      exact ⟨hnext, hsweeps⟩
    · rw [hpings, Option.toList_some] at happend
      simp only [happend, List.length_append, List.length_singleton, List.range_succ,
        List.map_append, List.map_singleton]
      exact ⟨hnext, by rw [← hsweeps]⟩

/-- The checksum of a ping is zero on any machine. -/
theorem inCksum_icmpPingPacket (order order' : ByteOrder) (sequenceNumber : ℕ) :
    inCksum order' (icmpPingPacket order sequenceNumber) = 0 := by
  have hlength : (order.bytes sequenceNumber).length = 2 := by cases order <;> rfl
  have hstored := @inCksum_stored order order' [8, 0] ([0, 0] ++ order.bytes sequenceNumber) rfl (by
    simp [hlength])
  unfold icmpPingPacket
  rw [List.append_assoc, List.append_assoc]
  exact hstored

/-- Pings of one machine with the same bytes have the same sequence number. -/
theorem icmpPingPacket_inj (order : ByteOrder) {number number' : ℕ} (h : number < 65536)
    (h' : number' < 65536)
    (hsame : icmpPingPacket order number = icmpPingPacket order number') : number = number' := by
  have hsplit := List.append_inj_right' hsame (by cases order <;> rfl)
  obtain ⟨b0, b1, hbytes, hword⟩ := order.word_bytes (show number ≤ 65535 by omega)
  obtain ⟨b0', b1', hbytes', hword'⟩ := order.word_bytes (show number' ≤ 65535 by omega)
  rw [hbytes, hbytes'] at hsplit
  obtain ⟨rfl, hrest⟩ := List.cons.inj hsplit
  obtain ⟨rfl, -⟩ := List.cons.inj hrest
  exact hword.symm.trans hword'

/-- Assumes: hosts with pairwise distinct addresses. They are set up, and in every run from there
the sweep of a number sends each host in order one packet, whose checksum a machine of either byte
order finds right. The packets of two sweeps are the same exactly if the numbers are congruent
modulo `2 ^ 16`. -/
theorem pingdRun_packets (nodesCount pingPeriod : ℕ) (order : ByteOrder)
    {hosts : List (List Char × InAddr)}
    (hhosts : (hosts.map Prod.snd).Nodup) :
    ∃ table, nodesSetup nodesCount (hosts.map fun host ↦ (host.1, some host.2)) = .ok table ∧
      ∀ inputs st outputs, pingdRun pingPeriod (pingdStart table) inputs = .ok (st, outputs) →
        ∀ k sweep, (sweeps outputs)[k]? = some sweep →
          sweep.map (fun ping ↦ (ping.destaddr, icmpPingPacket order ping.sequenceNumber)) =
              hosts.map (fun host ↦ (host.2, icmpPingPacket order (k % 65536))) ∧
            (∀ order', inCksum order' (icmpPingPacket order (k % 65536)) = 0) ∧
            ∀ j, icmpPingPacket order (k % 65536) = icmpPingPacket order (j % 65536) ↔
              k % 65536 = j % 65536 := by
  obtain ⟨table, hsetup, -, hnodes⟩ := nodesSetup_ok nodesCount hhosts
  refine ⟨table, hsetup, fun inputs st outputs hrun k sweep hsweep ↦
    ⟨?_, fun order' ↦ inCksum_icmpPingPacket _ _ _, fun j ↦ ?_⟩⟩
  · have hstart : (pingdStart table).Swept (hosts.map Prod.snd) 0 := by
      unfold PingdState.Swept pingdStart
      rw [hnodes, List.map_map, List.map_map]
      rfl
    rw [pingdRun_swept hstart hrun, List.getElem?_map] at hsweep
    obtain ⟨number, hnumber, rfl⟩ := Option.map_eq_some_iff.mp hsweep
    obtain rfl : number = k :=
      (List.getElem?_eq_some_iff.mp hnumber).2.symm.trans (List.getElem_range _)
    rw [sweepOf, List.map_map, List.map_map]
    rfl
  · exact ⟨icmpPingPacket_inj order (Nat.mod_lt _ (by decide)) (Nat.mod_lt _ (by decide)),
      fun h ↦ by rw [h]⟩

/-- The first of two rounds pings two hosts: its packets, and what they hold. -/
theorem pingdRun_packets_twoRounds :
    ∃ table st outputs sweep, nodesSetup 2 (twoHosts.map fun host ↦ (host.1, some host.2)) =
      .ok table ∧
      pingdRun 1000 (pingdStart table) twoRounds = .ok (st, outputs) ∧ sweeps outputs = [sweep] ∧
      sweep.map (fun ping ↦ (ping.destaddr, icmpPingPacket .little ping.sequenceNumber)) =
        [(⟨10, 0, 0, 1⟩, icmpPingPacket .little 0), (⟨10, 0, 0, 2⟩, icmpPingPacket .little 0)] ∧
      ∀ order', inCksum order' (icmpPingPacket .little 0) = 0 := by
  have hrun : ∃ table st outputs, nodesSetup 2 (twoHosts.map fun host ↦ (host.1, some host.2)) =
    .ok table ∧
      pingdRun 1000 (pingdStart table) twoRounds = .ok (st, outputs) ∧
      sweeps outputs = [[⟨⟨10, 0, 0, 1⟩, 0⟩, ⟨⟨10, 0, 0, 2⟩, 0⟩]] := ⟨_, _, _, rfl, rfl, rfl⟩
  obtain ⟨table, st, outputs, hsetup, hrun, hsweeps⟩ := hrun
  obtain ⟨table', hsetup', hpackets⟩ := @pingdRun_packets 2 1000 .little twoHosts (by decide)
  obtain rfl := Except.ok.inj (hsetup.symm.trans hsetup')
  obtain ⟨hsent, hsums, -⟩ := hpackets twoRounds st outputs hrun 0 _ (by rw [hsweeps]; rfl)
  exact ⟨table, st, outputs, _, hsetup, hrun, hsweeps, hsent, hsums⟩

end Whatsup
