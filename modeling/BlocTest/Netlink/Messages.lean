import BlocTest.Netlink.Model.Server
import Mathlib.Data.List.TakeWhile
/-!
# What the netlink server shows

The text of a message is read out of the buffer up to a NUL. The buffer is
cleared before the first message and never again, so behind a message that
does not bring its own NUL lies what the last longer message left there, and
behind one that fills the buffer lies nothing that belongs to it.
-/

namespace BlocTest

namespace Netlink

open Prog

variable {d : Datagram} {earlier : List Datagram} {s : Server} {block : ℕ → UInt8} {a n : ℕ}

/-- The text of a message: its payload up to the first NUL, or to its end. -/
def Datagram.text (d : Datagram) : List UInt8 := d.payload.takeWhile (· ≠ 0)

/-- The datagrams among the results, in order. -/
def datagrams (results : List Received) : List Datagram :=
  results.filterMap fun
    | .failed => none
    | .datagram d => some d

/-- The texts that were printed, in order. -/
def texts (printed : List Output) : List (List UInt8) :=
  printed.filterMap fun
    | .recvError => none
    | .message text _ _ _ => some text

/-- The message ends inside the buffer: it brings a NUL, or there is room
behind it and the last earlier message that was longer has a NUL there. -/
def Terminated (earlier : List Datagram) (d : Datagram) : Prop :=
  0 ∈ d.payload.take msgLen ∨
    d.payload.length < msgLen ∧ ∀ before e after, earlier = before ++ e :: after →
      d.payload.length < e.payload.length →
        (∀ e' ∈ after, e'.payload.length ≤ d.payload.length) →
          e.payload[d.payload.length]? = some 0

/-! ## The buffer -/

/-- The buffer has room for a header and `msgLen` bytes. -/
theorem space_msgLen : nlmsgSpace msgLen = nlmsgHdrlen + msgLen := rfl

/-- What is copied into the buffer. -/
def Datagram.copied (d : Datagram) : List UInt8 := d.bytes.take (nlmsgSpace msgLen)

/-- The header, and as much of the payload as fits. -/
theorem Datagram.copied_eq (d : Datagram) : d.copied = d.header ++ d.payload.take msgLen := by
  rw [copied, bytes, List.take_append, d.length_header]
  have hfits : d.header.length ≤ nlmsgSpace msgLen := by rw [d.length_header]; decide
  rw [List.take_of_length_le hfits]
  rfl

/-- The buffer after the messages `earlier`, cleared before the first. -/
def buffer (block : ℕ → UInt8) (earlier : List Datagram) : ℕ → UInt8 :=
  overwriteAll (fun _ => 0) Datagram.copied earlier
    (overwrite block 0 (List.replicate (nlmsgSpace msgLen) 0))

/-- The part of the buffer behind the header. -/
def window (block : ℕ → UInt8) (earlier : List Datagram) : List UInt8 :=
  slice (buffer block earlier) nlmsgHdrlen msgLen

/-- A message is written over those before it. -/
theorem buffer_concat :
    buffer block (earlier ++ [d]) = overwrite (buffer block earlier) 0 d.copied :=
  overwriteAll_concat

/-- A message lies over what was there before. -/
theorem window_concat :
    window block (earlier ++ [d]) = layer (window block earlier) (d.payload.take msgLen) := by
  have hlen : (d.payload.take msgLen).length ≤ msgLen := List.length_take_le _ _
  have hheader : 0 + d.header.length ≤ nlmsgHdrlen := by rw [d.length_header, Nat.zero_add]
  rw [window, buffer_concat, d.copied_eq, overwrite_append, d.length_header, Nat.zero_add,
    slice_overwrite hlen, slice_overwrite_before hheader]
  rfl

/-- A byte behind the header is written if the payload has one there. -/
theorem Datagram.within_copied (hn : n < msgLen) :
    Within 0 d.copied.length (nlmsgHdrlen + n) ↔ n < d.payload.length := by
  rw [d.copied_eq, List.length_append, d.length_header, List.length_take, Within]
  omega

theorem Datagram.getElem?_copied (hn : n < msgLen) :
    d.copied[nlmsgHdrlen + n]? = d.payload[n]? := by
  rw [d.copied_eq, List.getElem?_append_right (by rw [d.length_header]; omega), d.length_header,
    Nat.add_sub_cancel_left, List.getElem?_take_of_lt hn]

/-- The cleared buffer. -/
theorem cleared (hn : n < msgLen) :
    overwrite block 0 (List.replicate (nlmsgSpace msgLen) 0) (nlmsgHdrlen + n) = 0 := by
  have hin : Within 0 (List.replicate (nlmsgSpace msgLen) (0 : UInt8)).length
      (nlmsgHdrlen + n) := by
    rw [List.length_replicate, space_msgLen]
    exact ⟨Nat.zero_le _, by omega⟩
  exact List.eq_of_mem_replicate (List.mem_of_getElem? (overwrite_within hin).symm)

/-- **What is left at `n`** is a NUL exactly when the last message that was
longer than `n` has one there. -/
theorem getElem?_window_eq_zero (hn : n < msgLen) :
    (window block earlier)[n]? = some 0 ↔ ∀ before e after, earlier = before ++ e :: after →
      n < e.payload.length → (∀ e' ∈ after, e'.payload.length ≤ n) → e.payload[n]? = some 0 := by
  -- compared with the same writes, all of NULs
  let blank (d : Datagram) : List UInt8 := List.replicate d.copied.length 0
  have hblank : overwriteAll (fun _ => 0) blank earlier (fun _ => 0) (nlmsgHdrlen + n) = 0 :=
    overwriteAll_const (fun d _ x hx => List.eq_of_mem_replicate hx) rfl
  have hlen : ∀ d ∈ earlier, d.copied.length = (blank d).length :=
    fun d _ => List.length_replicate.symm
  have hcleared : Uncovered (fun _ => 0) Datagram.copied earlier (nlmsgHdrlen + n) →
      overwrite block 0 (List.replicate (nlmsgSpace msgLen) 0) (nlmsgHdrlen + n) = 0 :=
    fun _ => cleared hn
  have hlast : buffer block earlier (nlmsgHdrlen + n) =
      overwriteAll (fun _ => 0) blank earlier (fun _ => 0) (nlmsgHdrlen + n) ↔ _ :=
    overwriteAll_apply_eq_iff hlen
  rw [hblank, and_iff_left hcleared] at hlast
  rw [window, getElem?_slice hn, Option.some.injEq]
  refine hlast.trans (forall_congr' fun before => forall_congr' fun e => forall_congr' fun after =>
    imp_congr_right fun _ => ?_)
  rw [Datagram.within_copied hn, Nat.sub_zero, Datagram.getElem?_copied hn]
  refine imp_congr_right fun he => ?_
  have hzero : (blank e)[nlmsgHdrlen + n]? = some 0 := by
    have hin := ((Datagram.within_copied hn).2 he).2
    rw [Nat.zero_add] at hin
    exact List.getElem?_replicate_of_lt hin
  have huncovered : Uncovered (fun _ => 0) Datagram.copied after (nlmsgHdrlen + n) ↔
      ∀ e' ∈ after, e'.payload.length ≤ n := by
    refine forall_congr' fun e' => imp_congr_right fun _ => ?_
    rw [Datagram.within_copied hn, Nat.not_lt]
  rw [huncovered, hzero]

/-! ## One message -/

/-- **A string is read up to its NUL**, and there has to be one. -/
theorem wp_readString {Q : List UInt8 → Server → Prop} :
    wp (readString n a) Q s ↔
      0 ∈ slice s.nlhdr a n ∧ Q ((slice s.nlhdr a n).takeWhile (· ≠ 0)) s := by
  induction n generalizing a Q with
  | zero => simp [readString, slice]
  | succ n ih =>
      unfold readString
      rw [slice_succ]
      simp only [wp_bind, wp_get, wp_ite, wp_pure, ih]
      by_cases h0 : s.nlhdr a = 0
      · simp [h0]
      · have hne : (0 : UInt8) ≠ s.nlhdr a := fun h => h0 h.symm
        simp [h0, hne]

/-- What is behind the first `c` is not looked at. -/
theorem takeWhile_append_of_mem {c : UInt8} {xs ys : List UInt8} (h : c ∈ xs) :
    (xs ++ ys).takeWhile (· ≠ c) = xs.takeWhile (· ≠ c) := by
  induction xs with
  | nil => cases h
  | cons x xs ih =>
      by_cases hx : x = c
      · simp [hx]
      · have hmem : c ∈ xs := (List.mem_cons.1 h).resolve_left fun hc => hx hc.symm
        simp only [List.cons_append, List.takeWhile_cons, ih hmem]

/-- Nothing stands before the first `c` exactly if it is the first byte. -/
theorem mem_and_takeWhile_eq_nil {c : UInt8} {xs : List UInt8} :
    c ∈ xs ∧ xs.takeWhile (· ≠ c) = [] ↔ xs[0]? = some c := by
  cases xs with
  | nil => simp
  | cons x xs =>
      by_cases hx : x = c
      · simp [hx]
      · simp [hx]

/-- **The text that is read is the message's own** exactly when the message
is terminated. -/
theorem text_window_iff (block : ℕ → UInt8) :
    (0 ∈ window block (earlier ++ [d]) ∧
      (window block (earlier ++ [d])).takeWhile (· ≠ 0) = d.text) ↔ Terminated earlier d := by
  have hwindow : (window block earlier).length = msgLen := length_slice
  rw [window_concat, layer, Datagram.text, Terminated]
  by_cases hnul : 0 ∈ d.payload.take msgLen
  · -- the message brings its own NUL
    have htake := List.take_append_drop msgLen d.payload
    have hown : (d.payload.take msgLen).takeWhile (· ≠ 0) = d.payload.takeWhile (· ≠ 0) := by
      rw [← takeWhile_append_of_mem hnul, htake]
    rw [takeWhile_append_of_mem hnul, hown]
    exact iff_of_true ⟨List.mem_append_left _ hnul, rfl⟩ (Or.inl hnul)
  · have hne : ∀ x ∈ d.payload.take msgLen, decide (x ≠ 0) := fun x hx =>
      decide_eq_true fun h0 => hnul (h0 ▸ hx)
    rw [or_iff_right hnul, List.mem_append, or_iff_right hnul, List.takeWhile_append_of_pos hne]
    rcases Nat.lt_or_ge d.payload.length msgLen with hlt | hge
    · -- the text goes on into what is left behind the message
      rw [List.take_of_length_le (Nat.le_of_lt hlt)] at hne ⊢
      rw [List.takeWhile_eq_self_iff.2 hne, List.append_right_eq_self, mem_and_takeWhile_eq_nil,
        List.getElem?_drop, Nat.add_zero, getElem?_window_eq_zero hlt, and_iff_right hlt]
    · -- the message fills the buffer
      rw [List.drop_eq_nil_of_le (by rw [List.length_take]; omega)]
      exact iff_of_false (fun h => List.not_mem_nil h.1) fun h => Nat.not_lt_of_le hge h.1

/-! ## The loop -/

theorem wp_store {Q : Unit → Server → Prop} {bytes : List UInt8} :
    wp (store bytes) Q s ↔ Q () { s with nlhdr := overwrite s.nlhdr 0 bytes } := wp_modify

theorem wp_print {Q : Unit → Server → Prop} {out : Output} :
    wp (print out) Q s ↔ Q () { s with printed := s.printed ++ [out] } := wp_modify

/-- A round in which nothing is received. -/
theorem wp_receiveRound_failed {Q : Unit → Server → Prop} :
    wp (receiveRound .failed) Q s ↔ Q () { s with printed := s.printed ++ [.recvError] } := by
  have hneg : (-1 : Int32) < 0 := by decide
  unfold receiveRound recvmsg
  simp only [wp_bind, wp_pure, wp_ite, wp_print, hneg, true_implies, not_true_eq_false,
    false_implies, and_true]

/-- The number of bytes received is not negative. -/
theorem not_copied_neg : ¬ Int32.ofNat d.copied.length < 0 := by
  have hle : d.copied.length ≤ nlmsgSpace msgLen := List.length_take_le _ _
  have hspace : nlmsgSpace msgLen < 2 ^ 31 := by decide
  rw [Int32.lt_iff_toInt_lt, Int32.toInt_ofNat_of_lt (by omega)]
  exact Int.not_lt.2 (Int.natCast_nonneg _)

/-- A round in which `d` is received, after `earlier`. -/
theorem wp_receiveRound_datagram {Q : Unit → Server → Prop} (hs : s.nlhdr = buffer block earlier) :
    wp (receiveRound (.datagram d)) Q s ↔ 0 ∈ window block (earlier ++ [d]) ∧
      Q () { s with
        nlhdr := buffer block (earlier ++ [d])
        printed := s.printed ++ [.message ((window block (earlier ++ [d])).takeWhile (· ≠ 0))
          (slice (buffer block (earlier ++ [d])) 12 4) (slice (buffer block (earlier ++ [d])) 0 4)
          (slice (buffer block (earlier ++ [d])) 4 2)] } := by
  have hpos : ¬ Int32.ofNat (d.bytes.take (nlmsgSpace msgLen)).length < 0 := not_copied_neg
  have hroom : nlmsgSpace msgLen - nlmsgHdrlen = msgLen := rfl
  unfold receiveRound recvmsg
  simp only [wp_bind, wp_pure, wp_ite, wp_print, wp_store, wp_get, wp_readString, hpos, hroom,
    false_implies, true_and, not_false_eq_true, true_implies, hs]
  rw [window, buffer_concat]
  rfl

/-- The text of a message comes behind those before it. -/
theorem texts_concat {printed : List Output} {text pid len type : List UInt8} :
    texts (printed ++ [.message text pid len type]) = texts printed ++ [text] := by
  rw [texts, List.filterMap_append]
  rfl

/-- **The loop shows the texts of what is received** exactly when every
message is terminated, given those before it. -/
theorem wp_receiveLoop_iff {results : List Received} {shown : List (List UInt8)}
    (hs : s.nlhdr = buffer block earlier) :
    wp (receiveLoop results) (fun _ t =>
        texts t.printed = shown ++ (datagrams results).map Datagram.text) s ↔
      texts s.printed = shown ∧ ∀ before d after, datagrams results = before ++ d :: after →
        Terminated (earlier ++ before) d := by
  induction results generalizing s earlier shown with
  | nil => simp [receiveLoop, datagrams]
  | cons r results ih =>
      unfold receiveLoop
      rw [wp_bind]
      cases r with
      | failed =>
          rw [wp_receiveRound_failed]
          have htexts : texts (s.printed ++ [.recvError]) = texts s.printed := by
            simp [texts]
          rw [← htexts]
          exact ih hs
      | datagram d =>
          rw [wp_receiveRound_datagram hs]
          have hcons : shown ++ (datagrams (.datagram d :: results)).map Datagram.text =
              shown ++ [d.text] ++ (datagrams results).map Datagram.text := by
            rw [List.append_assoc]
            rfl
          have hparts : (∀ before x after, datagrams (.datagram d :: results) =
              before ++ x :: after → Terminated (earlier ++ before) x) ↔
              Terminated (earlier ++ []) d ∧ ∀ before x after, datagrams results =
                before ++ x :: after → Terminated (earlier ++ d :: before) x := forall_parts_cons
          rw [hcons, ih rfl, texts_concat, List.append_singleton_inj, hparts, List.append_nil,
            ← text_window_iff block]
          simp only [List.append_assoc, List.singleton_append]
          constructor
          · intro h
            obtain ⟨hnul, ⟨hshown, htext⟩, hrest⟩ := h
            exact ⟨hshown, ⟨hnul, htext⟩, hrest⟩
          · intro h
            obtain ⟨hshown, ⟨hnul, htext⟩, hrest⟩ := h
            exact ⟨hnul, ⟨hshown, htext⟩, hrest⟩

/-- **The server shows each message and only it exactly when every message
is terminated**: it brings a NUL in its first 512 bytes, or is shorter than
that and the last earlier message longer than it has a NUL where it ends. -/
theorem initNetlink_shows_iff (k : Kernel) (block : ℕ → UInt8) (s : Server)
    (hsocket : ¬ k.socket < 1) (hbind : ¬ k.bind < 0) (hmalloc : k.malloc = some block) :
    (∃ t, initNetlink k s = .ok (none, t) ∧
        texts t.printed = texts s.printed ++ (datagrams k.recvmsg).map Datagram.text) ↔
      ∀ before d after, datagrams k.recvmsg = before ++ d :: after → Terminated before d := by
  have hloop : wp (receiveLoop k.recvmsg) (fun _ t =>
      texts t.printed = texts s.printed ++ (datagrams k.recvmsg).map Datagram.text)
      { s with nlhdr := buffer block [] } ↔
        ∀ before d after, datagrams k.recvmsg = before ++ d :: after → Terminated before d :=
    (wp_receiveLoop_iff rfl).trans (and_iff_right rfl)
  have hrun : wp (initNetlink k) (fun r t => r = none ∧
      texts t.printed = texts s.printed ++ (datagrams k.recvmsg).map Datagram.text) s ↔
        wp (receiveLoop k.recvmsg) (fun _ t =>
          texts t.printed = texts s.printed ++ (datagrams k.recvmsg).map Datagram.text)
          { s with nlhdr := buffer block [] } := by
    unfold initNetlink
    rw [if_neg hsocket, if_neg hbind, hmalloc]
    simp only [wp_bind, wp_modify, wp_store, wp_pure, true_and]
    rfl
  rw [← hloop, ← hrun]
  constructor
  · intro h
    obtain ⟨t, hok, htexts⟩ := h
    exact ⟨none, t, hok, rfl, htexts⟩
  · intro h
    obtain ⟨r, t, hok, rfl, htexts⟩ := h
    exact ⟨t, hok, htexts⟩

/-- A message with an empty header. -/
def plain (payload : List UInt8) : Datagram := ⟨List.replicate nlmsgHdrlen 0, payload, rfl⟩

/-- A kernel that hands out everything it is asked for. -/
def delivers (messages : List (List UInt8)) : Kernel :=
  ⟨3, 0, some fun _ => 0xff, messages.map fun payload => .datagram (plain payload)⟩

/-- A server that has not printed anything. -/
def fresh : Server := ⟨fun _ => 0xff, [], []⟩

/-- `hello!`, then `hi` without a NUL. -/
def helloThenHi : Kernel := delivers [[104, 101, 108, 108, 111, 33], [104, 105]]

/-- These two messages. -/
theorem initNetlink_shows_iff_hi :
    (∃ t, initNetlink helloThenHi fresh = .ok (none, t) ∧
        texts t.printed =
          texts fresh.printed ++ (datagrams helloThenHi.recvmsg).map Datagram.text) ↔
      ∀ before d after, datagrams helloThenHi.recvmsg = before ++ d :: after →
        Terminated before d :=
  initNetlink_shows_iff helloThenHi (fun _ => 0xff) fresh (by decide) (by decide) rfl

/-- The second is shown as `hillo!`. -/
theorem initNetlink_hillo :
    (∃ t, initNetlink helloThenHi fresh = .ok (none, t) ∧
      texts t.printed = [[104, 101, 108, 108, 111, 33], [104, 105, 108, 108, 111, 33]]) ∧
    ¬ ∃ t, initNetlink helloThenHi fresh = .ok (none, t) ∧
      texts t.printed =
        texts fresh.printed ++ (datagrams helloThenHi.recvmsg).map Datagram.text := by
  rw [exists_run_iff rfl, exists_run_iff rfl]
  decide

end Netlink

end BlocTest
