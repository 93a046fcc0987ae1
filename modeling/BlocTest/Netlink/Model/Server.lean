import BlocTest.Common.Prog
import BlocTest.Common.Overwrite
/-!
# The receiving end of the netlink demo

`netlink_server.c`: one buffer, cleared once, into which every datagram is
received and out of which its text is printed up to a NUL. What the system
calls return is data here: `recvmsg` copies as much of the datagram as fits
and leaves the rest of the buffer as it was. The loop has no exit; it is run
over the results `recvmsg` returns.
-/

namespace BlocTest

namespace Netlink

open Prog

/-! ## `linux/netlink.h` -/

def nlmsgAlign (n : ℕ) : ℕ := (n + 3) / 4 * 4

/-- The size of `struct nlmsghdr`. -/
def nlmsgHdrlen : ℕ := nlmsgAlign 16

def nlmsgLength (n : ℕ) : ℕ := n + nlmsgHdrlen

def nlmsgSpace (n : ℕ) : ℕ := nlmsgAlign (nlmsgLength n)

/-! ## The server -/

/-- `MSGLEN`. -/
def msgLen : ℕ := 512

/-- A datagram: a `struct nlmsghdr` and what follows it. -/
structure Datagram where
  header : List UInt8
  payload : List UInt8
  length_header : header.length = nlmsgHdrlen

def Datagram.bytes (d : Datagram) : List UInt8 := d.header ++ d.payload

/-- What one `recvmsg` does. -/
inductive Received where
  | failed
  | datagram (d : Datagram)

/-- What is printed in one round of the loop. The fields of the header are
given as their bytes, in the order of the machine. -/
inductive Output where
  | recvError
  | message (text nlmsgPid nlmsgLen nlmsgType : List UInt8)
  deriving DecidableEq, Repr

/-- What the system calls and the allocator return. -/
structure Kernel where
  socket : Int32
  bind : Int32
  /-- The memory handed out, or null. -/
  malloc : Option (ℕ → UInt8)
  recvmsg : List Received

/-- The buffer, what has been printed and which descriptors were closed. -/
structure Server where
  nlhdr : ℕ → UInt8
  printed : List Output
  closed : List Int32

/-- Write into the buffer. -/
def store (bytes : List UInt8) : Prog Server Unit :=
  modify fun s => { s with nlhdr := overwrite s.nlhdr 0 bytes }

/-- `recvmsg`, which returns the number of bytes copied, or `-1`. -/
def recvmsg : Received → Prog Server Int32
  | .failed => return -1
  | .datagram d => do
      store (d.bytes.take (nlmsgSpace msgLen))
      return Int32.ofNat (d.bytes.take (nlmsgSpace msgLen)).length

/-- What `%s` prints, with `n` bytes of the buffer left from `a` on. -/
def readString : ℕ → ℕ → Prog Server (List UInt8)
  | 0, _ => fault .outOfRange
  | n + 1, a => do
      let s ← get
      if s.nlhdr a = 0 then
        return []
      else
        return s.nlhdr a :: (← readString n (a + 1))

/-- Print one round's output. -/
def print (out : Output) : Prog Server Unit :=
  modify fun s => { s with printed := s.printed ++ [out] }

/-- One round of the loop. -/
def receiveRound (r : Received) : Prog Server Unit := do
  let state ← recvmsg r
  if state < 0 then
    print .recvError
  else
    let text ← readString (nlmsgSpace msgLen - nlmsgHdrlen) nlmsgHdrlen
    let s ← get
    print (.message text (slice s.nlhdr 12 4) (slice s.nlhdr 0 4) (slice s.nlhdr 4 2))

/-- The loop, over what `recvmsg` returns. -/
def receiveLoop : List Received → Prog Server Unit
  | [] => return
  | r :: results => do
      receiveRound r
      receiveLoop results

/-- `init_netlink`, which returns only when it cannot be set up. -/
def initNetlink (k : Kernel) : Prog Server (Option Int32) := do
  if k.socket < 1 then
    return some (-1)
  else if k.bind < 0 then
    modify fun s => { s with closed := s.closed ++ [k.socket] }
    return some (-2)
  else
    match k.malloc with
    | none =>
        -- what is closed is the null pointer, not the socket
        modify fun s => { s with closed := s.closed ++ [0] }
        return some (-3)
    | some block =>
        modify fun s => { s with nlhdr := block }
        store (List.replicate (nlmsgSpace msgLen) 0)
        receiveLoop k.recvmsg
        return none

end Netlink

end BlocTest
