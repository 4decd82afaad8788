import B4n.Transport.Postcard
import Mathlib.Data.List.Basic

/-!
# Frames on a TCP stream

`transport/tcp.rs`: a message is serialised by the external crate `postcard`
and sent as a frame, four bytes of length and then the payload.  The reader
takes both parts with `read_exact`.

A stream is given by what the socket hands out, one `read` after the other:
some bytes, or an error; the end of a closed connection is the error
`unexpectedEof`.  `read_exact` goes on reading until it has all bytes; on an
error it returns at once, and the bytes it already took are gone.

## Main results

* `readExact_cases` — what `read_exact` does depends on the bytes and errors
  only, not on how the bytes are cut into reads.
* `readMsg_writeMsg_iff` — a message that was written is read back exactly if
  its payload is within the limit of the reader.
-/

namespace B4n.Transport

open B4n.Lib

/-! ## Reading from a socket -/

/-- The kinds of `std::io::Error` that `read_exact` and the frame functions
return. -/
inductive ErrorKind where
  | timedOut
  | wouldBlock
  | invalidData
  | unexpectedEof
  | other
deriving DecidableEq

/-- What one `read` of the socket hands out. -/
inductive Arrival where
  | data (bytes : List UInt8)
  | fault (kind : ErrorKind)
deriving DecidableEq

/-- What a socket hands out from here on. -/
abbrev TcpStream := List Arrival

/-- The result of a read and what is left of the stream; `blocked` while it
waits for more. -/
inductive Outcome (α : Type) where
  | ok (value : α) (rest : TcpStream)
  | err (kind : ErrorKind) (rest : TcpStream)
  | blocked
deriving DecidableEq

/-- The `?` operator. -/
def Outcome.andThen {α β : Type} (outcome : Outcome α)
    (f : α → TcpStream → Outcome β) : Outcome β :=
  match outcome with
  | .ok value rest => f value rest
  | .err kind rest => .err kind rest
  | .blocked => .blocked

/-- `Read::read_exact` into a buffer of `need` bytes. -/
def readExact : TcpStream → Nat → Outcome (List UInt8)
  | [], need => if need = 0 then .ok [] [] else .blocked
  | .fault kind :: stream, need =>
      if need = 0 then .ok [] (.fault kind :: stream) else .err kind stream
  | .data bytes :: stream, need =>
      if need ≤ bytes.length then
        .ok (bytes.take need) (.data (bytes.drop need) :: stream)
      else
        (readExact stream (need - bytes.length)).andThen fun more rest =>
          .ok (bytes ++ more) rest

/-! ## Frames -/

/-- `MAX_FRAME` -/
def MAX_FRAME : Nat := 16 * 1024 * 1024

/-- `write_frame`: the bytes it writes. -/
def writeFrame (payload : List UInt8) : Except ErrorKind (List UInt8) :=
  if payload.length < 2 ^ 32 then
    .ok (beBytes 4 payload.length ++ payload)
  else .error .invalidData

/-- `read_frame` -/
def readFrame (stream : TcpStream) : Outcome (List UInt8) :=
  (readExact stream 4).andThen fun lenBuf stream =>
    let len := beValue lenBuf
    if MAX_FRAME < len then .err .invalidData stream
    else readExact stream len

/-- `write_msg`: the bytes it writes. -/
def writeMsg [Postcard] (msg : ProtocolMessage) :
    Except ErrorKind (List UInt8) :=
  match Postcard.toStdvec msg with
  | none => .error .invalidData
  | some payload => writeFrame payload

/-- `read_msg` -/
def readMsg [Postcard] (stream : TcpStream) : Outcome ProtocolMessage :=
  (readFrame stream).andThen fun frame rest =>
    match Postcard.fromBytes frame with
    | none => .err .invalidData rest
    | some msg => .ok msg rest

/-! ## The stream byte by byte -/

/-- The bytes and errors of a stream, however the bytes are cut into reads. -/
def flat : TcpStream → List (UInt8 ⊕ ErrorKind)
  | [] => []
  | .data bytes :: stream => bytes.map .inl ++ flat stream
  | .fault kind :: stream => .inr kind :: flat stream

/-- Bytes that arrive without an error among them. -/
def quietly (bytes : List UInt8) : List (UInt8 ⊕ ErrorKind) := bytes.map .inl

theorem quietly_append (xs ys : List UInt8) :
    quietly (xs ++ ys) = quietly xs ++ quietly ys :=
  List.map_append

theorem length_quietly (bytes : List UInt8) :
    (quietly bytes).length = bytes.length :=
  List.length_map _

theorem quietly_inj {xs ys : List UInt8} (h : quietly xs = quietly ys) :
    xs = ys :=
  List.map_injective_iff.mpr (fun _ _ heq => Sum.inl.inj heq) h

/-- Bytes of one length at the front of a stream are the same bytes. -/
theorem quietly_append_inj {xs ys : List UInt8}
    {s t : List (UInt8 ⊕ ErrorKind)} (hlength : xs.length = ys.length)
    (h : quietly xs ++ s = quietly ys ++ t) : xs = ys ∧ s = t := by
  obtain ⟨hfront, hrest⟩ := List.append_inj h (by
    rw [length_quietly, length_quietly, hlength])
  exact ⟨quietly_inj hfront, hrest⟩

/-- An error does not come before bytes that arrive quietly. -/
theorem length_le_of_quietly {xs ys : List UInt8}
    {s t : List (UInt8 ⊕ ErrorKind)} {kind : ErrorKind}
    (h : quietly xs ++ s = quietly ys ++ .inr kind :: t) :
    xs.length ≤ ys.length := by
  by_contra hlt
  have hat := congrArg (fun l => l[ys.length]?) h
  rw [List.getElem?_append_left (by rw [length_quietly]; omega),
    List.getElem?_append_right (by rw [length_quietly]), length_quietly,
    Nat.sub_self, quietly, List.getElem?_map,
    List.getElem?_eq_getElem (by omega)] at hat
  simp at hat

/-- The results of `read_exact`. -/
inductive ReadCase (stream : TcpStream) (need : Nat) :
    Outcome (List UInt8) → Prop where
  | ok (bytes : List UInt8) (rest : TcpStream) (hlength : bytes.length = need)
      (hflat : flat stream = quietly bytes ++ flat rest) :
      ReadCase stream need (.ok bytes rest)
  | err (lost : List UInt8) (kind : ErrorKind) (rest : TcpStream)
      (hlength : lost.length < need)
      (hflat : flat stream = quietly lost ++ .inr kind :: flat rest) :
      ReadCase stream need (.err kind rest)
  | blocked (got : List UInt8) (hlength : got.length < need)
      (hflat : flat stream = quietly got) :
      ReadCase stream need .blocked

/-- `read_exact` takes the bytes it needs, or fails with the first error before
them, or waits. -/
theorem readExact_cases (stream : TcpStream) (need : Nat) :
    ReadCase stream need (readExact stream need) := by
  induction stream generalizing need with
  | nil =>
      unfold readExact
      by_cases hzero : need = 0
      · rw [if_pos hzero]
        exact .ok [] [] hzero.symm rfl
      · rw [if_neg hzero]
        exact .blocked [] (Nat.pos_of_ne_zero hzero) rfl
  | cons arrival stream ih =>
      unfold readExact
      cases arrival with
      | fault kind =>
          dsimp only
          by_cases hzero : need = 0
          · rw [if_pos hzero]
            exact .ok [] _ hzero.symm rfl
          · rw [if_neg hzero]
            exact .err [] kind stream (Nat.pos_of_ne_zero hzero) rfl
      | data bytes =>
          dsimp only
          by_cases henough : need ≤ bytes.length
          · rw [if_pos henough]
            refine .ok _ _ (List.length_take_of_le henough) ?_
            show quietly bytes ++ flat stream =
              quietly (bytes.take need) ++
                (quietly (bytes.drop need) ++ flat stream)
            rw [← List.append_assoc, ← quietly_append, List.take_append_drop]
          · rw [if_neg henough]
            have hmore := ih (need - bytes.length)
            have hflat : flat (.data bytes :: stream) =
                quietly bytes ++ flat stream := rfl
            generalize readExact stream (need - bytes.length) = outcome at hmore
            cases hmore with
            | ok more rest hlength hrest =>
                refine .ok (bytes ++ more) rest ?_ ?_
                · rw [List.length_append]
                  omega
                · rw [hflat, hrest, quietly_append, List.append_assoc]
            | err lost kind rest hlength hrest =>
                refine .err (bytes ++ lost) kind rest ?_ ?_
                · rw [List.length_append]
                  omega
                · rw [hflat, hrest, quietly_append, List.append_assoc]
            | blocked got hlength hrest =>
                refine .blocked (bytes ++ got) ?_ ?_
                · rw [List.length_append]
                  omega
                · rw [hflat, hrest, quietly_append]

/-- Bytes that are there are read, and nothing behind them is touched. -/
theorem readExact_of_quietly {stream : TcpStream} {bytes : List UInt8}
    {tail : List (UInt8 ⊕ ErrorKind)}
    (harrives : flat stream = quietly bytes ++ tail) :
    ∃ rest, readExact stream bytes.length = .ok bytes rest ∧
      flat rest = tail := by
  have hcase := readExact_cases stream bytes.length
  generalize readExact stream bytes.length = outcome at hcase
  cases hcase with
  | ok found rest hlength hflat =>
      rw [harrives] at hflat
      obtain ⟨rfl, htail⟩ := quietly_append_inj hlength.symm hflat
      exact ⟨rest, rfl, htail.symm⟩
  | err lost kind rest hlength hflat =>
      rw [harrives] at hflat
      have hle := length_le_of_quietly hflat
      omega
  | blocked got hlength hflat =>
      have hlen := congrArg List.length (harrives.symm.trans hflat)
      rw [List.length_append, length_quietly, length_quietly] at hlen
      omega

/-! ## Frames byte by byte -/

/-- The bytes of a frame. -/
def frameBytes (payload : List UInt8) : List UInt8 :=
  beBytes 4 payload.length ++ payload

theorem length_frameBytes (payload : List UInt8) :
    (frameBytes payload).length = 4 + payload.length := by
  unfold frameBytes
  rw [List.length_append, length_beBytes]

/-- What is known of the length field of a frame that arrives. -/
theorem readFrame_of_quietly {stream : TcpStream} {payload : List UInt8}
    {tail : List (UInt8 ⊕ ErrorKind)} (hlength : payload.length < 2 ^ 32)
    (harrives : flat stream = quietly (frameBytes payload) ++ tail) :
    ∃ rest, flat rest = quietly payload ++ tail ∧
      readFrame stream =
        if MAX_FRAME < payload.length then .err .invalidData rest
        else readExact rest payload.length := by
  unfold frameBytes at harrives
  rw [quietly_append, List.append_assoc] at harrives
  obtain ⟨rest, hread, hrest⟩ := readExact_of_quietly harrives
  rw [length_beBytes] at hread
  refine ⟨rest, hrest, ?_⟩
  unfold readFrame
  rw [hread]
  show (if MAX_FRAME < beValue (beBytes 4 payload.length) then _ else _) = _
  rw [beValue_beBytes (by omega)]

/-- What a frame that is read consists of. -/
theorem readFrame_eq_ok {stream rest : TcpStream} {payload : List UInt8}
    (h : readFrame stream = .ok payload rest) :
    ∃ lenBuf, lenBuf.length = 4 ∧ payload.length = beValue lenBuf ∧
      flat stream = quietly lenBuf ++ (quietly payload ++ flat rest) := by
  unfold readFrame at h
  have hheader := readExact_cases stream 4
  generalize readExact stream 4 = outcome at h hheader
  cases hheader with
  | err lost kind rest' hlength hflat => cases h
  | blocked got hlength hflat => cases h
  | ok lenBuf mid hlength hflat =>
      refine ⟨lenBuf, hlength, ?_⟩
      change (if MAX_FRAME < beValue lenBuf then _ else _) = _ at h
      split at h
      · cases h
      · have hbody := readExact_cases mid (beValue lenBuf)
        rw [h] at hbody
        cases hbody with
        | ok _ _ hpayload hmid => exact ⟨hpayload, by rw [hflat, hmid]⟩

/-- An error of the socket ends the read where it comes. -/
theorem readFrame_eq_err {stream rest : TcpStream} {kind : ErrorKind}
    (h : readFrame stream = .err kind rest) (hkind : kind ≠ .invalidData) :
    ∃ lost, flat stream = quietly lost ++ .inr kind :: flat rest := by
  unfold readFrame at h
  have hheader := readExact_cases stream 4
  generalize readExact stream 4 = outcome at h hheader
  cases hheader with
  | blocked got hlength hflat => cases h
  | err lost kind' rest' hlength hflat =>
      cases h
      exact ⟨lost, hflat⟩
  | ok lenBuf mid hlength hflat =>
      change (if MAX_FRAME < beValue lenBuf then _ else _) = _ at h
      split at h
      · cases h
        exact absurd rfl hkind
      · have hbody := readExact_cases mid (beValue lenBuf)
        rw [h] at hbody
        cases hbody with
        | err lost _ _ _ hmid =>
            refine ⟨lenBuf ++ lost, ?_⟩
            rw [hflat, hmid, quietly_append, List.append_assoc]

section

variable [Postcard]

theorem writeMsg_eq_ok {msg : ProtocolMessage} {bytes : List UInt8}
    (h : writeMsg msg = .ok bytes) :
    ∃ payload, Postcard.toStdvec msg = some payload ∧
      payload.length < 2 ^ 32 ∧ bytes = frameBytes payload := by
  unfold writeMsg at h
  split at h
  · cases h
  · rename_i payload hpayload
    unfold writeFrame at h
    split at h
    · rename_i hlength
      cases h
      exact ⟨payload, hpayload, hlength, rfl⟩
    · cases h

/-- A frame within the limit is read, and the stream is left behind it. -/
theorem readMsg_of_quietly (hcodec : Postcard.RoundTrips)
    {msg : ProtocolMessage} {payload : List UInt8}
    (hpayload : Postcard.toStdvec msg = some payload)
    (hlength : payload.length ≤ MAX_FRAME) {stream : TcpStream}
    {tail : List (UInt8 ⊕ ErrorKind)}
    (harrives : flat stream = quietly (frameBytes payload) ++ tail) :
    ∃ rest, readMsg stream = .ok msg rest ∧ flat rest = tail := by
  have hsmall : payload.length < 2 ^ 32 := by
    unfold MAX_FRAME at hlength
    omega
  obtain ⟨mid, hmid, hframe⟩ := readFrame_of_quietly hsmall harrives
  obtain ⟨rest, hread, hrest⟩ := readExact_of_quietly hmid
  rw [if_neg (Nat.not_lt.mpr hlength), hread] at hframe
  refine ⟨rest, ?_, hrest⟩
  unfold readMsg
  rw [hframe]
  show (match Postcard.fromBytes payload with
    | none => Outcome.err .invalidData rest
    | some msg => .ok msg rest) = .ok msg rest
  rw [hcodec msg payload hpayload]

/-- A frame beyond the limit is refused. -/
theorem readMsg_of_too_big {payload : List UInt8}
    (hlength : payload.length < 2 ^ 32) (hbig : MAX_FRAME < payload.length)
    {stream : TcpStream} {tail : List (UInt8 ⊕ ErrorKind)}
    (harrives : flat stream = quietly (frameBytes payload) ++ tail) :
    ∃ rest, readMsg stream = .err .invalidData rest := by
  obtain ⟨rest, -, hframe⟩ := readFrame_of_quietly hlength harrives
  rw [if_pos hbig] at hframe
  refine ⟨rest, ?_⟩
  unfold readMsg
  rw [hframe]
  rfl

/-- What `write_msg` wrote, `read_msg` reads back, leaving the stream behind
the frame, if and only if the payload has at most `MAX_FRAME` bytes. -/
theorem readMsg_writeMsg_iff (hcodec : Postcard.RoundTrips)
    {msg : ProtocolMessage} {payload bytes : List UInt8}
    (hpayload : Postcard.toStdvec msg = some payload)
    (hwrite : writeMsg msg = .ok bytes) {stream : TcpStream}
    {tail : List (UInt8 ⊕ ErrorKind)}
    (harrives : flat stream = quietly bytes ++ tail) :
    (∃ rest, readMsg stream = .ok msg rest ∧ flat rest = tail) ↔
      payload.length ≤ MAX_FRAME := by
  obtain ⟨written, hwritten, hlength, rfl⟩ := writeMsg_eq_ok hwrite
  rw [hpayload, Option.some.injEq] at hwritten
  subst hwritten
  constructor
  · rintro ⟨rest, hread, -⟩
    by_contra hbig
    obtain ⟨other, hrefused⟩ :=
      readMsg_of_too_big hlength (Nat.not_le.mp hbig) harrives
    rw [hread] at hrefused
    cases hrefused
  · intro hfits
    exact readMsg_of_quietly hcodec hpayload hfits harrives

end

namespace Sample

open B4n.Blockchain

/-- A message of two bytes, cut in the middle of its length. -/
theorem readMsg_writeMsg_iff_helloAck :
    ∃ rest, readMsg [.data [0, 0], .data [0, 2, 1], .data [5, 9]] =
      .ok (.helloAck 5) rest ∧ flat rest = quietly [9] :=
  have hwrite : writeMsg (.helloAck 5) = .ok [0, 0, 0, 2, 1, 5] := rfl
  (readMsg_writeMsg_iff roundTrips rfl hwrite rfl).mpr (by decide)

/-- A transaction whose text has `n` letters. -/
def trxOfLength (n : Nat) : Transaction :=
  ⟨1, 1, 2, String.ofList (List.replicate n 'a')⟩

theorem size_text (n : Nat) :
    (String.ofList (List.replicate n 'a')).toByteArray.size = n := by
  rw [String.toByteArray_ofList]
  induction n with
  | zero => rfl
  | succ n ih =>
      rw [List.replicate_succ, List.utf8Encode_cons, ByteArray.size_append, ih]
      show 1 + n = n + 1
      omega

/-- The variant, the ids, the length of the text and the text. -/
theorem length_encode_trx (n : Nat) :
    n < (encode (.trx (trxOfLength n))).length ∧
      (encode (.trx (trxOfLength n))).length ≤ 5 + 2 * n := by
  let bytes := (trxOfLength n).text.toByteArray.data.toList
  have hsize : bytes.length = n := size_text n
  have hencode : encode (.trx (trxOfLength n)) = [6, 1, 1, 2] ++
      (varint (bytes.length + 1) bytes.length ++ bytes.flatMap fun b => [b]) :=
    rfl
  have hle := length_varint_le (bytes.length + 1) bytes.length
  rw [hencode, List.length_append, List.length_append, List.flatMap_singleton',
    hsize]
  rw [hsize] at hle
  show n < 4 + _ ∧ 4 + _ ≤ 5 + 2 * n
  omega

/-- With a text as long as the largest frame, the length field is wide enough
but the reader refuses the frame. -/
theorem longTrx_not_read :
    ∃ bytes rest, writeMsg (.trx (trxOfLength MAX_FRAME)) = .ok bytes ∧
      readMsg [.data bytes] = .err .invalidData rest := by
  have hmax : MAX_FRAME = 16777216 := rfl
  obtain ⟨hbig, hle⟩ := length_encode_trx MAX_FRAME
  generalize hmsg : ProtocolMessage.trx (trxOfLength MAX_FRAME) = msg at *
  have hlength : (encode msg).length < 2 ^ 32 := by omega
  have hwrite : writeMsg msg = .ok (frameBytes (encode msg)) := by
    show writeFrame (encode msg) = _
    unfold writeFrame
    rw [if_pos hlength]
    rfl
  have harrives : flat [.data (frameBytes (encode msg))] =
      quietly (frameBytes (encode msg)) ++ [] := rfl
  obtain ⟨rest, hrefused⟩ := readMsg_of_too_big hlength hbig harrives
  exact ⟨_, rest, hwrite, hrefused⟩

end Sample

end B4n.Transport
