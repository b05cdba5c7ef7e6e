/-
Messages over a socket.

A frame is the length of the payload in four bytes, the lowest first, and the
payload. `sendAll` and `recvAll` are the loops around the socket calls, which
may take or give any part of what they are asked for. `framing_transparent`:
whatever the pieces on either side, the receiving end gets the payloads that
were sent, and a frame it accepts is all it takes off the stream.
-/
import InferenceScheduler.Lib.Binary
import InferenceScheduler.Lib.Channel

namespace InferenceScheduler.Net

open Binary Channel

/-! ## The loops around the socket calls -/

def sendAll (data : Bytes) (o : Outlet UInt8) : Bool × Outlet UInt8 :=
  if 0 < data.length then
    let w := o.write data
    if w.1 = 0 then (false, w.2) else sendAll (data.drop w.1) w.2
  else (true, o)
termination_by data.length
decreasing_by rw [List.length_drop]; exact Nat.sub_lt ‹_› (Nat.pos_of_ne_zero ‹_›)

/-- So many bytes, none if the stream ends before. -/
def recvAll (n : ℕ) (i : Inlet UInt8) : Option Bytes × Inlet UInt8 :=
  if 0 < n then
    let r := i.read n
    if r.1.length = 0 then (none, r.2)
    else
      let rest := recvAll (n - r.1.length) r.2
      (rest.1.map (r.1 ++ ·), rest.2)
  else (some [], i)
termination_by n
decreasing_by exact Nat.sub_lt ‹_› (Nat.pos_of_ne_zero ‹_›)

theorem sendAll_accepts (data : Bytes) (o : Outlet UInt8) : (sendAll data o).2.accepts = o.accepts := by
  fun_induction sendAll data o with
  | case1 data o hn w hw => rfl
  | case2 data o hn w hw ih => exact ih
  | case3 data o hn => rfl

/-- A loop over writes that do not fail sends everything, in its order. -/
theorem sendAll_reliable (data : Bytes) {o : Outlet UInt8} (ho : o.Reliable) :
    (sendAll data o).1 = true ∧ (sendAll data o).2.sent = o.sent ++ data := by
  fun_induction sendAll data o with
  | case1 data o hn w hw => exact absurd hw (ho.write_pos (List.length_pos_iff.1 hn)).ne'
  | case2 data o hn w hw ih =>
    obtain ⟨htrue, hsent⟩ := ih ho
    refine ⟨htrue, ?_⟩
    rw [hsent, Outlet.write_sent, List.append_assoc, List.take_append_drop]
  | case3 data o hn =>
    obtain rfl : data = [] := List.eq_nil_of_length_eq_zero (by omega)
    exact ⟨rfl, (List.append_nil _).symm⟩

/-- The bytes a loop over reads is asked for, if there are so many. -/
theorem recvAll_enough {n : ℕ} {i : Inlet UInt8} (h : n ≤ i.pending.length) :
    (recvAll n i).1 = some (i.pending.take n) ∧ (recvAll n i).2.pending = i.pending.drop n := by
  fun_induction recvAll n i with
  | case1 n i hn r hr =>
    have hnil := (i.read_eq_nil_iff hn).1 (List.eq_nil_of_length_eq_zero hr)
    rw [hnil, List.length_nil] at h
    omega
  | case2 n i hn r hr rest ih =>
    have hsplit : r.1 ++ r.2.pending = i.pending := i.read_append n
    have hle : r.1.length ≤ n := i.read_length_le n
    rw [← hsplit, List.length_append] at h
    obtain ⟨hsome, hrest⟩ := ih (by omega)
    rw [← hsplit, List.take_append, List.drop_append, List.take_of_length_le hle, List.drop_of_length_le hle,
      hsome, hrest]
    exact ⟨rfl, rfl⟩
  | case3 n i hn =>
    obtain rfl : n = 0 := by omega
    exact ⟨rfl, rfl⟩

theorem recvAll_short {n : ℕ} {i : Inlet UInt8} (h : i.pending.length < n) : (recvAll n i).1 = none := by
  fun_induction recvAll n i with
  | case1 n i hn r hr => rfl
  | case2 n i hn r hr rest ih =>
    have hsplit : r.1 ++ r.2.pending = i.pending := i.read_append n
    rw [← hsplit, List.length_append] at h
    rw [ih (by omega)]
    rfl
  | case3 n i hn => omega

/-- What a loop over reads answers was next on the stream, and is all it took. -/
theorem recvAll_some {n : ℕ} {i : Inlet UInt8} {bs : Bytes} (h : (recvAll n i).1 = some bs) :
    bs.length = n ∧ i.pending = bs ++ (recvAll n i).2.pending := by
  by_cases hn : n ≤ i.pending.length
  · obtain ⟨hsome, hrest⟩ := recvAll_enough hn
    obtain rfl : i.pending.take n = bs := Option.some.inj (hsome.symm.trans h)
    exact ⟨List.length_take_of_le hn, by rw [hrest, List.take_append_drop]⟩
  · rw [recvAll_short (by omega)] at h
    cases h

/-! ## Connections -/

/-- The longest payload, 16 MiB. -/
def kMaxFrame : ℕ := 16 * 1024 * 1024

structure FramedConnection where
  fd : ℤ
  inlet : Inlet UInt8
  outlet : Outlet UInt8

namespace FramedConnection

def valid (c : FramedConnection) : Bool := decide (0 ≤ c.fd)

/-- The payload behind its length. -/
def frame (payload : Bytes) : Bytes := putU32 (UInt32.ofNat payload.length) ++ payload

def send (payload : Bytes) (c : FramedConnection) : Bool × FramedConnection :=
  if c.valid = false then (false, c)
  else if kMaxFrame < payload.length then (false, c)
  else
    let header := sendAll (putU32 (UInt32.ofNat payload.length)) c.outlet
    if header.1 = false then (false, { c with outlet := header.2 })
    else
      let body := sendAll payload header.2
      (body.1, { c with outlet := body.2 })

def recv (c : FramedConnection) : Option Bytes × FramedConnection :=
  if c.valid = false then (none, c)
  else
    let header := recvAll 4 c.inlet
    let c := { c with inlet := header.2 }
    match header.1 with
    | none => (none, c)
    | some hdr =>
      let len := toNat hdr
      if len = 0 ∨ kMaxFrame < len then (none, c)
      else
        let body := recvAll len c.inlet
        (body.1, { c with inlet := body.2 })

/-- The payloads one after the other, and whether each was sent. -/
def sendEach : List Bytes → FramedConnection → List Bool × FramedConnection
  | [], c => ([], c)
  | p :: ps, c =>
    let first := c.send p
    let rest := sendEach ps first.2
    (first.1 :: rest.1, rest.2)

/-- So many calls of `recv`, and what each returned. -/
def recvEach : ℕ → FramedConnection → List (Option Bytes) × FramedConnection
  | 0, c => ([], c)
  | n + 1, c =>
    let first := c.recv
    let rest := recvEach n first.2
    (first.1 :: rest.1, rest.2)

/-! ## What gets across -/

variable {c : FramedConnection} {payload : Bytes}

theorem header_toNat (h : payload.length ≤ kMaxFrame) :
    toNat (putU32 (UInt32.ofNat payload.length)) = payload.length := by
  have hlt : payload.length < 2 ^ 32 := by
    rw [kMaxFrame] at h
    omega
  rw [putU32, UInt32.toNat_ofNat_of_lt' hlt, toNat_ofNat (by omega)]

theorem send_frame (hvalid : c.valid = true) (hreliable : c.outlet.Reliable) (hsize : payload.length ≤ kMaxFrame) :
    (c.send payload).1 = true ∧ (c.send payload).2.outlet.sent = c.outlet.sent ++ frame payload ∧
      (c.send payload).2.valid = true ∧ (c.send payload).2.outlet.Reliable := by
  obtain ⟨hheader, hsentHeader⟩ := sendAll_reliable (putU32 (UInt32.ofNat payload.length)) hreliable
  have hnext : (sendAll (putU32 (UInt32.ofNat payload.length)) c.outlet).2.Reliable := by
    rw [Outlet.Reliable, sendAll_accepts]
    exact hreliable
  obtain ⟨hbody, hsentBody⟩ := sendAll_reliable payload hnext
  rw [send, if_neg (by rw [hvalid]; exact Bool.true_eq_false.mp), if_neg (not_lt.2 hsize)]
  simp only [hheader, Bool.true_eq_false, if_false]
  refine ⟨hbody, ?_, hvalid, ?_⟩
  · rw [hsentBody, hsentHeader, frame, List.append_assoc]
  · rw [Outlet.Reliable, sendAll_accepts]
    exact hnext

theorem recv_frame {rest : Bytes} (hvalid : c.valid = true) (hpos : 0 < payload.length)
    (hsize : payload.length ≤ kMaxFrame) (hnext : c.inlet.pending = frame payload ++ rest) :
    c.recv.1 = some payload ∧ c.recv.2.inlet.pending = rest ∧ c.recv.2.valid = true := by
  have hlen : (putU32 (UInt32.ofNat payload.length)).length = 4 := length_ofNat 4 _
  rw [frame, List.append_assoc] at hnext
  obtain ⟨hheader, hbehind⟩ := recvAll_enough (n := 4) (i := c.inlet)
    (by rw [hnext, List.length_append, hlen]; omega)
  rw [hnext, List.take_left' hlen] at hheader
  rw [hnext, List.drop_left' hlen] at hbehind
  obtain ⟨hbody, hrest⟩ := recvAll_enough (n := payload.length) (i := (recvAll 4 c.inlet).2)
    (by rw [hbehind, List.length_append]; omega)
  rw [hbehind, List.take_left] at hbody
  rw [hbehind, List.drop_left] at hrest
  rw [recv, if_neg (by rw [hvalid]; exact Bool.true_eq_false.mp)]
  simp only [hheader, header_toNat hsize]
  rw [if_neg (by omega)]
  exact ⟨hbody, hrest, hvalid⟩

/-- A frame that is accepted is within the bounds, and is all that was taken. -/
theorem recv_sound (h : c.recv.1 = some payload) :
    0 < payload.length ∧ payload.length ≤ kMaxFrame ∧ c.inlet.pending = frame payload ++ c.recv.2.inlet.pending := by
  rw [recv] at h ⊢
  split at h
  · cases h
  · next hvalid =>
    rw [if_neg hvalid]
    dsimp only at h ⊢
    cases hheader : (recvAll 4 c.inlet).1 with
    | none =>
      rw [hheader] at h
      cases h
    | some hdr =>
      rw [hheader] at h
      dsimp only at h ⊢
      split at h
      · cases h
      · next hlen =>
        rw [if_neg hlen]
        obtain ⟨hfour, hfront⟩ := recvAll_some hheader
        obtain ⟨hbody, hbehind⟩ := recvAll_some h
        have hlt : toNat hdr < 2 ^ 32 := by
          rw [kMaxFrame] at hlen
          omega
        have hback : putU32 (UInt32.ofNat payload.length) = hdr := by
          rw [hbody, putU32, UInt32.toNat_ofNat_of_lt' hlt, ← hfour, ofNat_toNat]
        refine ⟨by omega, by omega, ?_⟩
        rw [frame, hback, hfront, hbehind, List.append_assoc]

/-- A run of sends puts the frames on the stream one after the other. -/
theorem sendEach_frames {payloads : List Bytes} (hvalid : c.valid = true) (hreliable : c.outlet.Reliable)
    (hsize : ∀ p ∈ payloads, p.length ≤ kMaxFrame) :
    (∀ ok ∈ (c.sendEach payloads).1, ok = true) ∧
      (c.sendEach payloads).2.outlet.sent = c.outlet.sent ++ (payloads.map frame).flatten := by
  induction payloads generalizing c with
  | nil => exact ⟨fun ok hok => absurd hok List.not_mem_nil, (List.append_nil _).symm⟩
  | cons p ps ih =>
    obtain ⟨htrue, hsent, hvalid', hreliable'⟩ := send_frame hvalid hreliable (hsize p List.mem_cons_self)
    obtain ⟨hall, hrest⟩ := ih hvalid' hreliable' fun q hq => hsize q (List.mem_cons_of_mem p hq)
    refine ⟨?_, ?_⟩
    · intro ok hok
      rcases List.mem_cons.1 hok with rfl | hok
      · exact htrue
      · exact hall ok hok
    · rw [sendEach, hrest, hsent, List.map_cons, List.flatten_cons, List.append_assoc]

/-- A run of receives takes the frames off the stream one after the other. -/
theorem recvEach_frames {payloads : List Bytes} {rest : Bytes} (hvalid : c.valid = true)
    (hsize : ∀ p ∈ payloads, 0 < p.length ∧ p.length ≤ kMaxFrame)
    (hnext : c.inlet.pending = (payloads.map frame).flatten ++ rest) :
    (c.recvEach payloads.length).1 = payloads.map some ∧ (c.recvEach payloads.length).2.inlet.pending = rest := by
  induction payloads generalizing c with
  | nil => exact ⟨rfl, hnext⟩
  | cons p ps ih =>
    obtain ⟨hpos, hle⟩ := hsize p List.mem_cons_self
    rw [List.map_cons, List.flatten_cons, List.append_assoc] at hnext
    obtain ⟨hsome, hbehind, hvalid'⟩ := recv_frame hvalid hpos hle hnext
    obtain ⟨hall, hrest⟩ := ih hvalid' (fun q hq => hsize q (List.mem_cons_of_mem p hq)) hbehind
    rw [List.length_cons, recvEach, hsome, hall, hrest]
    exact ⟨rfl, rfl⟩

/-- **However the stream is cut, the payloads arrive as they were sent.** End
`b` has read what `a` sent before; the payloads that `a` sends now are what
`b` receives next, and `b` then stands before whatever `a` sends later. And
on any stream, a payload that is accepted is neither empty nor longer than
16 MiB, and its frame is all that is taken off the stream. -/
theorem framing_transparent :
    (∀ (a b : FramedConnection) (payloads : List Bytes) (later : Bytes), a.valid = true → b.valid = true →
      a.outlet.Reliable → (∀ p ∈ payloads, 1 ≤ p.length ∧ p.length ≤ kMaxFrame) →
      a.outlet.sent ++ b.inlet.pending = (a.sendEach payloads).2.outlet.sent ++ later →
      (∀ ok ∈ (a.sendEach payloads).1, ok = true) ∧
        (b.recvEach payloads.length).1 = payloads.map some ∧
        (b.recvEach payloads.length).2.inlet.pending = later) ∧
    ∀ (c : FramedConnection) (payload : Bytes), c.recv.1 = some payload →
      1 ≤ payload.length ∧ payload.length ≤ kMaxFrame ∧
        c.inlet.pending = frame payload ++ c.recv.2.inlet.pending := by
  refine ⟨?_, fun c payload h => recv_sound h⟩
  intro a b payloads later ha hb hreliable hsize hwire
  obtain ⟨hall, hsent⟩ := sendEach_frames ha hreliable fun p hp => (hsize p hp).2
  rw [hsent, List.append_assoc] at hwire
  exact ⟨hall, recvEach_frames hb hsize (List.append_cancel_left hwire)⟩

/-- A sender whose writes are taken three bytes at a time. -/
def slowSender : FramedConnection := ⟨3, ⟨[], List.not_mem_nil⟩, ⟨fun _ => 3, []⟩⟩

/-- A receiver to which two frames come in pieces across their borders. -/
def raggedReceiver : FramedConnection :=
  ⟨4, ⟨[[5, 0], [0, 0, 1], [2, 3, 4, 5, 1], [0, 0], [0, 34]], by decide⟩, ⟨fun _ => 1, []⟩⟩

theorem framing_transparent_ragged :
    (raggedReceiver.recvEach 2).1 = [some [1, 2, 3, 4, 5], some [34]] := by
  have hreliable : slowSender.outlet.Reliable := fun _ => (by decide : 0 < 3)
  have hsize : ∀ p ∈ [[1, 2, 3, 4, 5], [34]], 1 ≤ p.length ∧ (p : Bytes).length ≤ kMaxFrame := by decide
  have hsent := (sendEach_frames (c := slowSender) rfl hreliable fun p hp => (hsize p hp).2).2
  exact (framing_transparent.1 slowSender raggedReceiver _ [] rfl rfl hreliable hsize (by rw [hsent]; decide)).2.1

end FramedConnection

end InferenceScheduler.Net
