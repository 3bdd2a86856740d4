import TorrentEngine.Proofs.Calls
import TorrentEngine.Proofs.Refusals
import TorrentEngine.Proofs.Stream
import TorrentEngine.Proofs.Tiling

/-!
What a peer is sent. A peer may ask for any range of any piece. It is sent this range, byte for
byte, just if the range lies inside a piece of the content, every block that it meets is held, the
read goes well and the line has room. Otherwise nothing is sent, and in no case does anything else
change but the count of what the peer was sent. As in the division into pieces, the functions here
whose names end in a question mark compute in words and give nothing where a word overflows or a
place is out of range.
-/

namespace TorrentEngine

/-! ### Ranges of blocks -/

/-- A quotient, which there is not by zero. -/
def Word.div? (a b : Nat) : Option Nat := if b = 0 then none else some (a / b)

theorem Word.div?_of_pos {a b : Nat} (h : 0 < b) : Word.div? a b = some (a / b) :=
  if_neg (Nat.ne_of_gt h)

/-- The elements from one place of a list to another, both included. -/
def span {α : Type} (l : List α) (first last : Nat) : List α :=
  (l.drop first).take (last + 1 - first)

/-- `span` where the places are in order and in range. -/
def span? {α : Type} (l : List α) (first last : Nat) : Option (List α) :=
  if first ≤ last + 1 ∧ last < l.length then some (span l first last) else none

theorem mem_span {α : Type} {l : List α} {first last : Nat} {a : α} :
    a ∈ span l first last ↔ ∃ k, first ≤ k ∧ k ≤ last ∧ l[k]? = some a := by
  rw [span, List.mem_iff_getElem?]
  constructor
  · rintro ⟨j, hj⟩
    rw [List.getElem?_take, List.getElem?_drop] at hj
    split at hj
    · exact ⟨first + j, by omega, by omega, hj⟩
    · cases hj
  · rintro ⟨k, hFirst, hLast, hk⟩
    refine ⟨k - first, ?_⟩
    rw [List.getElem?_take, List.getElem?_drop, if_pos (by omega), Nat.add_sub_cancel' hFirst]
    exact hk

theorem BlockStatus.isHeld_iff {s : BlockStatus} :
    s.isHeld = true ↔ s = .stored ∨ s = .verified := by
  cases s <;> simp [BlockStatus.isHeld]

namespace Piece

/-- Every block that a range meets is held. -/
def HoldsRange (p : Piece) (offset length : Nat) : Prop :=
  ∀ b block, p.blocks[b]? = some block → p.blockOffset b < offset + length →
    offset < p.blockOffset b + block.size → block.status = .stored ∨ block.status = .verified

/-- `Piece.checkRange` in words of 32 bits. A range whose end is no word is refused. -/
def checkRange? (p : Piece) (offset length : Nat) : Option (Except PieceError Unit) :=
  let unavailable := Except.error (.rangeUnavailable p.index offset length)
  match Word.add? 32 offset length with
  | none => some unavailable
  | some stop =>
    if length = 0 ∨ p.length < stop then some unavailable
    else do
      let first ← Word.div? offset p.blockSize
      let last ← Word.div? (← Word.sub? stop 1) p.blockSize
      let blocks ← span? p.blocks first last
      return if blocks.all (·.status.isHeld) then .ok () else unavailable

end Piece

namespace FileSet

variable {fs : FileSet} {blockSize : Nat} {digests : List Digest} {i b offset length : Nat}
  {p : Piece} {block : Block}

/-- The block around a position is found by division. -/
theorem CutFrom.div_lt_length (h : fs.CutFrom blockSize digests) (hp : fs.pieces[i]? = some p)
    {k : Nat} (hk : k < p.length) : k / p.blockSize < p.blocks.length := by
  obtain ⟨b, block, hb, hLow, hHigh⟩ := h.block_covered hp hk
  have hSize := (h.block hp hb).2.2
  have hPlace : k / p.blockSize = b := by
    unfold Piece.blockOffset at hLow hHigh
    apply Nat.div_eq_of_lt_le
    · exact hLow
    · rw [Nat.succ_mul]
      omega
  rw [hPlace]
  exact (List.getElem?_eq_some_iff.mp hb).1

/-- A range meets the blocks between those around its first byte and its last. -/
theorem CutFrom.meets_iff (h : fs.CutFrom blockSize digests) (hp : fs.pieces[i]? = some p)
    (hb : p.blocks[b]? = some block) (hSome : 1 ≤ length) (hInside : offset + length ≤ p.length) :
    (offset / p.blockSize ≤ b ∧ b ≤ (offset + length - 1) / p.blockSize) ↔
      p.blockOffset b < offset + length ∧ offset < p.blockOffset b + block.size := by
  obtain ⟨-, hStart, hSize⟩ := h.block hp hb
  have hPos := h.blockSize_pos hp
  unfold Piece.blockOffset
  rw [Nat.le_div_iff_mul_le hPos, ← Nat.lt_succ_iff, Nat.div_lt_iff_lt_mul hPos, Nat.succ_mul,
    hSize]
  omega

theorem CutFrom.checkRange_eq_ok (h : fs.CutFrom blockSize digests)
    (hp : fs.pieces[i]? = some p) :
    p.checkRange offset length = .ok () ↔
      1 ≤ length ∧ offset + length ≤ p.length ∧ p.HoldsRange offset length := by
  unfold Piece.checkRange
  by_cases hRange : length = 0 ∨ p.length < offset + length
  · simp only [if_pos hRange, reduceCtorEq, false_iff]
    omega
  · rw [if_neg hRange]
    have hSome : 1 ≤ length := by omega
    have hInside : offset + length ≤ p.length := by omega
    have hAll : (span p.blocks (offset / p.blockSize) ((offset + length - 1) / p.blockSize)).all
        (·.status.isHeld) = true ↔ p.HoldsRange offset length := by
      rw [List.all_eq_true]
      constructor
      · intro hHeld b block hb hBefore hAfter
        obtain ⟨hFirst, hLast⟩ := (h.meets_iff hp hb hSome hInside).mpr ⟨hBefore, hAfter⟩
        exact BlockStatus.isHeld_iff.mp (hHeld block (mem_span.mpr ⟨b, hFirst, hLast, hb⟩))
      · intro hHeld block hMem
        obtain ⟨b, hFirst, hLast, hb⟩ := mem_span.mp hMem
        obtain ⟨hBefore, hAfter⟩ := (h.meets_iff hp hb hSome hInside).mp ⟨hFirst, hLast⟩
        exact BlockStatus.isHeld_iff.mpr (hHeld b block hb hBefore hAfter)
    unfold span at hAll
    dsimp only
    split
    · next hHeld => exact iff_of_true rfl ⟨hSome, hInside, hAll.mp hHeld⟩
    · next hOpen => exact iff_of_false nofun fun hOk => hOpen (hAll.mpr hOk.2.2)

/-- No word overflows while a range is looked up, and no place is out of range. -/
theorem CutFrom.checkRange?_eq (h : fs.CutFrom blockSize digests) (hp : fs.pieces[i]? = some p)
    (hShort : p.length < 2 ^ 32) (offset length : Nat) :
    p.checkRange? offset length = some (p.checkRange offset length) := by
  unfold Piece.checkRange? Piece.checkRange
  by_cases hRange : length = 0 ∨ p.length < offset + length
  · rw [if_pos hRange]
    cases hStop : Word.add? 32 offset length with
    | none => rfl
    | some stop =>
      obtain rfl : offset + length = stop := by
        unfold Word.add? Word.ofNat? at hStop
        split at hStop
        · exact Option.some.inj hStop
        · cases hStop
      exact if_pos hRange
  · have hPos := h.blockSize_pos hp
    have hFirst : offset / p.blockSize ≤ (offset + length - 1) / p.blockSize + 1 := by
      have hMono : offset / p.blockSize ≤ (offset + length - 1) / p.blockSize :=
        Nat.div_le_div_right (by omega)
      omega
    have hLast : (offset + length - 1) / p.blockSize < p.blocks.length :=
      h.div_lt_length hp (by omega)
    rw [Word.add?_of_lt (by omega), if_neg hRange]
    dsimp only
    rw [if_neg hRange, Word.div?_of_pos hPos, Word.sub?_of_le (by omega)]
    simp only [Option.bind_eq_bind, Option.bind_some, Word.div?_of_pos hPos, span?,
      if_pos (And.intro hFirst hLast)]
    unfold span
    split <;> rfl

end FileSet

/-! ### Bytes of a storage -/

theorem eq_of_whole? {cells : List (Option UInt8)} {bytes : Bytes}
    (h : whole? cells = some bytes) : cells = bytes.map some := by
  induction cells generalizing bytes with
  | nil =>
    obtain rfl := Option.some.inj h
    rfl
  | cons cell rest ih =>
    cases cell with
    | none => cases h
    | some b =>
      obtain ⟨more, hMore, rfl⟩ := Option.map_eq_some_iff.mp h
      rw [List.map_cons, ← ih hMore]

theorem LaidFile.cells_of_readAt {t : FileTree} {f : LaidFile} {offset count : Nat} {bytes : Bytes}
    (h : t.readAt f.path offset count = .ok bytes) (hInside : offset + count ≤ f.length) :
    ((f.cells t).drop offset).take count = bytes.map some := by
  obtain ⟨content, hContent, -⟩ := bind_eq_ok.mp h
  rw [readAt_eq hContent hInside] at h
  split at h
  · next hWhole =>
    obtain rfl := Except.ok.inj h
    exact eq_of_whole? hWhole
  · cases h

/-- What is read from files one after the other are the bytes at their places in the stream. -/
theorem Layout.cells_of_readFiles {t : FileTree} {files : List LaidFile} {start pos count : Nat}
    {bytes : Bytes} (hLaid : Laid start files) (hStart : start ≤ pos) (hCount : 0 < count)
    (h : readFiles t files pos count = .ok (some bytes)) :
    ((cells t files).drop (pos - start)).take count = bytes.map some := by
  induction files generalizing start pos count bytes with
  | nil => cases h
  | cons f rest ih =>
    obtain ⟨rfl, hRest⟩ := hLaid
    have hCells : cells t (f :: rest) = f.cells t ++ cells t rest := rfl
    rw [hCells, List.drop_append, List.take_append, List.length_drop, LaidFile.length_cells,
      Nat.sub_sub]
    unfold readFiles at h
    by_cases hCovers : LaidFile.covers f pos = true
    · rw [if_pos hCovers] at h
      rw [covers_iff] at hCovers
      obtain ⟨here, hHere, h⟩ := bind_eq_ok.mp h
      have hFirst := LaidFile.cells_of_readAt hHere (by omega)
      have hTaken : ((f.cells t).drop (pos - f.start)).take count = here.map some := by
        rw [← hFirst, List.take_eq_take_iff, List.length_drop, LaidFile.length_cells]
        omega
      rw [hTaken]
      split at h
      · next hAll =>
        obtain rfl := Option.some.inj (Except.ok.inj h)
        have hNothing : count - (f.length - (pos - f.start)) = 0 := by omega
        rw [hNothing, List.take_zero, List.append_nil]
      · next hMore =>
        obtain ⟨more, hRead, h⟩ := bind_eq_ok.mp h
        obtain ⟨others, rfl, rfl⟩ := Option.map_eq_some_iff.mp (Except.ok.inj h)
        have hOthers := ih hRest (by omega) (by omega) hRead
        have hEnd : pos + min count (f.start + f.length - pos) - (f.start + f.length) =
            pos - (f.start + f.length) := by omega
        have hLeft : count - min count (f.start + f.length - pos) =
            count - (f.length - (pos - f.start)) := by omega
        rw [hEnd, hLeft] at hOthers
        rw [hOthers, List.map_append]
    · rw [if_neg hCovers] at h
      rw [covers_iff] at hCovers
      have hPast : (f.cells t).drop (pos - f.start) = [] := by
        rw [List.drop_eq_nil_iff, LaidFile.length_cells]
        omega
      have hCount : count - (f.length - (pos - f.start)) = count := by omega
      rw [hPast, List.take_nil, List.nil_append, hCount]
      exact ih hRest (by omega) (by omega) h

namespace Storage

variable {s : Storage} {t : FileTree} {offset length : Nat} {data : Bytes}

/-- The bytes of a storage, one place after the other. On disk a place may be empty. -/
def cells (t : FileTree) : Storage → List (Option UInt8)
  | .memory b => b.map some
  | .disk l => Layout.cells t l.files
  | .scripted m => m.bytes.map some

theorem cells_of_read_memory {b : Bytes} (h : Memory.read b offset length = .ok data) :
    ((b.map some).drop offset).take length = data.map some := by
  unfold Memory.read at h
  split at h
  · obtain rfl := Except.ok.inj h
    rw [← List.map_drop, ← List.map_take]
    rfl
  · cases h

/-- A read that succeeds gives the bytes at the places asked for, where the files of a layout lie
one after the other. -/
theorem cells_of_read (hLaid : ∀ l, s.layout? = some l → Layout.Laid 0 l.files)
    (hLength : 0 < length) (h : (s.read t offset length).1 = .done data) :
    ((s.cells t).drop offset).take length = data.map some := by
  cases s with
  | memory b => exact cells_of_read_memory (Reply.ofExcept_eq_done.mp h)
  | disk l =>
    have hRead : l.read t offset length = .ok data := Reply.ofExcept_eq_done.mp h
    unfold Layout.read at hRead
    rw [if_neg (by omega)] at hRead
    split at hRead
    · next hFiles =>
      obtain rfl := Except.ok.inj hRead
      exact Layout.cells_of_readFiles (hLaid l rfl) (Nat.zero_le _) hLength hFiles
    · cases hRead
    · cases hRead
  | scripted m =>
    unfold Storage.read ScriptedMemory.read at h
    dsimp only at h
    split at h
    · exact cells_of_read_memory (Reply.ofExcept_eq_done.mp h)
    · cases h
    · cases h

/-- The storage without the plan and the record of a scripted memory. -/
def bare : Storage → Storage
  | .scripted m => .scripted { bytes := m.bytes }
  | s => s

/-- Reading changes nothing but the plan and the record. -/
theorem bare_read (s : Storage) (t : FileTree) (offset length : Nat) :
    (s.read t offset length).2.bare = s.bare := by
  cases s with
  | memory b => rfl
  | disk l => rfl
  | scripted m =>
    unfold Storage.read ScriptedMemory.read
    dsimp only
    split <;> rfl

end Storage

namespace Torrent

variable {t : Torrent} {fs : FileSet}

/-- The torrent without the plan and the record of a scripted memory. -/
def bare (t : Torrent) : Torrent :=
  t.change (·.changeFileSet fun fs => { fs with storage := fs.storage.bare })

theorem bare_setStorage (hfs : t.download.fileSet = some fs) {s : Storage}
    (h : s.bare = fs.storage.bare) : (t.setStorage s).bare = t.bare := by
  unfold Torrent.bare Torrent.setStorage Torrent.change Download.changeFileSet
  dsimp only
  rw [hfs, Option.map_some, Option.map_some, Option.map_some, h]

end Torrent

/-! ### Sending -/

/-- A file set that was cut from a content whose sizes are words; the statuses of its blocks and its
storage may be any. -/
def FileSet.Built (fs : FileSet) : Prop :=
  ∃ kind pieceLength total digests blockSize storage created,
    pieceLength < 2 ^ 32 ∧ total < 2 ^ 64 ∧
      create kind pieceLength total digests blockSize storage = .ok created ∧ SameCut created fs

/-- A line with one more message waiting. -/
def Network.queue (n : Network) (line : LineId) (m : Message) : Network :=
  n.change line fun c => { c with waiting := c.waiting ++ [m] }

/-- The line is open and not full. -/
def Network.Admits (n : Network) (line : LineId) : Prop :=
  ∃ c, n.line? line = some c ∧ c.isOpen = true ∧ c.waiting.length < c.capacity

namespace Network

variable {n : Network} {line : LineId} {m : Message}

theorem send?_of_admits (h : n.Admits line) (m : Message) :
    n.send? line m = some (n.queue line m) := by
  obtain ⟨c, hc, hOpen, hRoom⟩ := h
  have hOffer : c.offer? m = some { c with waiting := c.waiting ++ [m] } := by
    unfold Channel.offer?
    rw [if_pos (by simp [hOpen, hRoom])]
  unfold send? queue change
  rw [hc]
  dsimp only
  rw [hOffer, Option.map_some, List.set_eq_modify]
  congr 2
  apply modify_congr
  intro c' hc'
  obtain rfl := Option.some.inj (hc.symm.trans hc')
  rfl

theorem send?_of_not_admits (h : ¬ n.Admits line) (m : Message) : n.send? line m = none := by
  unfold send?
  cases hc : n.line? line with
  | none => rfl
  | some c =>
    dsimp only
    have hOffer : c.offer? m = none := by
      unfold Channel.offer?
      rw [if_neg]
      intro hRoom
      simp only [Bool.and_eq_true, decide_eq_true_eq] at hRoom
      exact h ⟨c, hc, hRoom⟩
    rw [hOffer]
    rfl

theorem queue_ne (h : n.Admits line) (m : Message) : n.queue line m ≠ n := by
  obtain ⟨c, hc, -⟩ := h
  intro hSame
  have hLine : (n.queue line m).line? line = some { c with waiting := c.waiting ++ [m] } := by
    unfold line? at hc ⊢
    unfold queue change
    rw [List.getElem?_modify_eq, hc]
    rfl
  rw [hSame, hc] at hLine
  have hWaiting : c.waiting = c.waiting ++ [m] :=
    congrArg Channel.waiting (Option.some.inj hLine)
  cases List.self_eq_append_right.mp hWaiting

end Network

namespace FileSet

variable {fs : FileSet} {i : Nat} {p : Piece}

theorem Built.cutFrom (h : fs.Built) : ∃ blockSize digests, fs.CutFrom blockSize digests := by
  obtain ⟨_, _, _, digests, blockSize, _, created, _, _, hCreated, hSame⟩ := h
  exact ⟨blockSize, digests, (cutFrom_create hCreated).sameCut hSame⟩

theorem Built.sizes (h : fs.Built) : fs.pieceLength < 2 ^ 32 ∧ fs.totalLength < 2 ^ 64 := by
  obtain ⟨_, _, _, _, _, _, created, hPiece, hTotal, hCreated, hSame⟩ := h
  obtain ⟨_, _, rfl⟩ := create_eq_ok hCreated
  rw [hSame.pieceLength_eq, hSame.totalLength_eq]
  exact ⟨hPiece, hTotal⟩

end FileSet

namespace Job

variable {t : Torrent} {d : Download} {peer : PeerId} {line : LineId}
  {i offset length position : Nat} {data : Bytes} {fs : FileSet} {p : Piece}

/-- `Job.prepareSend` in words. -/
def prepareSend? (d : Download) (i offset length : Nat) : Option (Except PieceError Nat) :=
  match current? d .data with
  | none => some (.error (.unknownPiece i))
  | some fs =>
    match fs.piece i with
    | .error e => some (.error e)
    | .ok p => do
      match ← p.checkRange? offset length with
      | .error e => return .error e
      | .ok () => return .ok (← fs.globalOffset? i offset)

/-- A range of at least one byte of a piece of the content, of which all blocks are held. -/
structure Available (d : Download) (i offset length : Nat) (fs : FileSet) (p : Piece) : Prop where
  fileSet : d.fileSet = some fs
  kind_eq : fs.kind = .data
  hasPiece : fs.pieces[i]? = some p
  someByte : 1 ≤ length
  inside : offset + length ≤ p.length
  held : p.HoldsRange offset length

/-- A range is available, it is read as `data`, and the line takes one more message. -/
def Ready (t : Torrent) (line : LineId) (i offset length : Nat) (data : Bytes) : Prop :=
  ∃ fs p, Available t.download i offset length fs p ∧
    (fs.storage.read t.tree (i * fs.pieceLength + offset) length).1 = .done data ∧
    t.network.Admits line

/-- The torrent once the data are on the line and counted for the peer, if it is connected. -/
def served (t : Torrent) (peer : PeerId) (line : LineId) (i offset : Nat) (data : Bytes) :
    Torrent :=
  { t with
    network := t.network.queue line (.block i offset data)
    download := t.download.changePeer peer fun p =>
      { p with uploaded := p.uploaded + data.length } }

theorem prepareSend_eq_ok (hBuilt : ∀ fs, d.fileSet = some fs → fs.Built) :
    prepareSend d i offset length = .ok position ↔
      ∃ fs p, Available d i offset length fs p ∧ position = i * fs.pieceLength + offset := by
  unfold prepareSend
  constructor
  · intro h
    cases hCurrent : current? d .data with
    | none =>
      rw [hCurrent] at h
      cases h
    | some fs =>
      rw [hCurrent] at h
      obtain ⟨p, hp, h⟩ := bind_eq_ok.mp h
      obtain ⟨_, hRange, h⟩ := bind_eq_ok.mp h
      obtain ⟨hfs, hKind⟩ := current?_eq_some.mp hCurrent
      obtain ⟨_, _, hCut⟩ := (hBuilt fs hfs).cutFrom
      have hPiece := FileSet.piece_eq_ok.mp hp
      obtain ⟨hSome, hInside, hHeld⟩ := (hCut.checkRange_eq_ok hPiece).mp hRange
      exact ⟨fs, p, ⟨hfs, hKind, hPiece, hSome, hInside, hHeld⟩, (Except.ok.inj h).symm⟩
  · rintro ⟨fs, p, ⟨hfs, hKind, hPiece, hSome, hInside, hHeld⟩, rfl⟩
    obtain ⟨_, _, hCut⟩ := (hBuilt fs hfs).cutFrom
    have hRange := (hCut.checkRange_eq_ok hPiece).mpr ⟨hSome, hInside, hHeld⟩
    rw [current?_eq_some.mpr ⟨hfs, hKind⟩]
    exact bind_eq_ok.mpr ⟨p, FileSet.piece_eq_ok.mpr hPiece, bind_eq_ok.mpr ⟨(), hRange, rfl⟩⟩

theorem prepareSend?_eq (hBuilt : ∀ fs, d.fileSet = some fs → fs.Built) (i offset length : Nat) :
    prepareSend? d i offset length = some (prepareSend d i offset length) := by
  unfold prepareSend? prepareSend
  cases hCurrent : current? d .data with
  | none => rfl
  | some fs =>
    dsimp only
    cases hp : fs.piece i with
    | error e => rfl
    | ok p =>
      have hPiece := FileSet.piece_eq_ok.mp hp
      have hFs := hBuilt fs (current?_eq_some.mp hCurrent).1
      obtain ⟨hShort, hTotal⟩ := hFs.sizes
      obtain ⟨_, _, hCut⟩ := hFs.cutFrom
      have hLength := hCut.length_eq hPiece
      dsimp only
      rw [hCut.checkRange?_eq hPiece (by omega), Option.bind_eq_bind, Option.bind_some]
      cases hRange : p.checkRange offset length with
      | error e => simp [bind, Except.bind, hRange]
      | ok =>
        obtain ⟨_, hInside, _⟩ := (hCut.checkRange_eq_ok hPiece).mp hRange
        have hBefore : offset ≤ p.length := by omega
        have hOffset := (hCut.inWords hShort hTotal).globalOffset hPiece hBefore
        simp [bind, Except.bind, hRange, hOffset]
        rfl

/-! ### One run -/

theorem commitSend_of_admits (h : t.network.Admits line) :
    (commitSend t peer line i offset data).after = served t peer line i offset data := by
  unfold commitSend
  rw [Network.send?_of_admits h]
  rfl

theorem commitSend_of_not_admits (h : ¬ t.network.Admits line) :
    (commitSend t peer line i offset data).after = t := by
  unfold commitSend
  rw [Network.send?_of_not_admits h]

theorem bare_served_setStorage (hfs : t.download.fileSet = some fs) {s : Storage}
    (h : s.bare = fs.storage.bare) :
    (served (t.setStorage s) peer line i offset data).bare =
      (served t peer line i offset data).bare := by
  unfold served Torrent.bare Torrent.setStorage Torrent.change Download.changePeer
    Download.changeFileSet
  dsimp only
  rw [hfs, Option.map_some, Option.map_some, Option.map_some, h]

/-- Where a range is available a send ends by the reply to its read. -/
theorem run_send_of_available (hBuilt : ∀ fs, t.download.fileSet = some fs → fs.Built)
    (h : Available t.download i offset length fs p) (peer : PeerId) (line : LineId) :
    run (.send peer line i offset length) t =
      finishSend (t.setStorage (fs.storage.read t.tree (i * fs.pieceLength + offset) length).2)
        peer line i offset (fs.storage.read t.tree (i * fs.pieceLength + offset) length).1 := by
  have hPrepared := (prepareSend_eq_ok hBuilt).mpr ⟨fs, p, h, rfl⟩
  simp only [run, runSend, hPrepared, h.fileSet]

/-- A ready send puts the data on the line and counts them. -/
theorem bare_run_send_of_ready (hBuilt : ∀ fs, t.download.fileSet = some fs → fs.Built)
    (h : Ready t line i offset length data) :
    (run (.send peer line i offset length) t).after.bare =
      (served t peer line i offset data).bare := by
  obtain ⟨fs, p, hAvailable, hRead, hAdmits⟩ := h
  have hStill (s : Storage) : (t.setStorage s).network.Admits line := hAdmits
  rw [run_send_of_available hBuilt hAvailable, hRead]
  show (commitSend (t.setStorage _) peer line i offset data).after.bare = _
  rw [commitSend_of_admits (hStill _),
    bare_served_setStorage hAvailable.fileSet (Storage.bare_read ..)]

/-- A send that is not ready does nothing. -/
theorem bare_run_send_of_not_ready (hBuilt : ∀ fs, t.download.fileSet = some fs → fs.Built)
    (h : ∀ data, ¬ Ready t line i offset length data) :
    (run (.send peer line i offset length) t).after.bare = t.bare := by
  cases hPrepared : prepareSend t.download i offset length with
  | error e => rw [run_send_of_error hPrepared]
  | ok position =>
    obtain ⟨fs, p, hAvailable, rfl⟩ := (prepareSend_eq_ok hBuilt).mp hPrepared
    have hBare := Torrent.bare_setStorage hAvailable.fileSet
      (Storage.bare_read fs.storage t.tree (i * fs.pieceLength + offset) length)
    rw [run_send_of_available hBuilt hAvailable]
    cases hRead : (fs.storage.read t.tree (i * fs.pieceLength + offset) length).1 with
    | done data =>
      have hFull (s : Storage) : ¬ (t.setStorage s).network.Admits line := fun hAdmits =>
        h data ⟨fs, p, hAvailable, hRead, hAdmits⟩
      show (commitSend (t.setStorage _) peer line i offset data).after.bare = _
      rw [commitSend_of_not_admits (hFull _), hBare]
    | failed e => exact hBare
    | crashed => exact hBare

/-- A ready send is of as many bytes as were asked for, the ones at their places in the storage. -/
theorem Ready.bytes (h : Ready t line i offset length data) :
    data.length = length ∧ ∀ fs, t.download.fileSet = some fs →
      (∀ l, fs.storage.layout? = some l → Layout.Laid 0 l.files) →
        ((fs.storage.cells t.tree).drop (i * fs.pieceLength + offset)).take length =
          data.map some := by
  obtain ⟨fs, p, hAvailable, hRead, -⟩ := h
  refine ⟨Storage.length_read hRead, fun fs' hfs hLaid => ?_⟩
  obtain rfl := Option.some.inj (hAvailable.fileSet.symm.trans hfs)
  exact Storage.cells_of_read hLaid hAvailable.someByte hRead

/-- A job that is to send a peer a range of a piece sends it, as one message, just if the range is
available, can be read, and the line has room. It never leaves the words and the places that there
are, and apart from the message it changes only the count of what the peer was sent. -/
theorem send_serves {t : Torrent} (hBuilt : ∀ fs, t.download.fileSet = some fs → fs.Built)
    (peer : PeerId) (line : LineId) (i offset length : Nat) :
    let after := (run (.send peer line i offset length) t).after
    prepareSend? t.download i offset length = some (prepareSend t.download i offset length) ∧
      (after.network ≠ t.network ↔ ∃ data, Ready t line i offset length data) ∧
      (∀ data, Ready t line i offset length data →
        after.bare = (served t peer line i offset data).bare ∧ data.length = length ∧
          ∀ fs, t.download.fileSet = some fs →
            (∀ l, fs.storage.layout? = some l → Layout.Laid 0 l.files) →
              ((fs.storage.cells t.tree).drop (i * fs.pieceLength + offset)).take length =
                data.map some) ∧
      ((∀ data, ¬ Ready t line i offset length data) → after.bare = t.bare) := by
  intro after
  refine ⟨prepareSend?_eq hBuilt i offset length, ?_, ?_, bare_run_send_of_not_ready hBuilt⟩
  · constructor
    · intro hSent
      by_contra hNone
      have hBare : after.bare = t.bare := bare_run_send_of_not_ready hBuilt (not_exists.mp hNone)
      have hNetwork : after.bare.network = t.bare.network := by rw [hBare]
      exact hSent hNetwork
    · rintro ⟨data, hReady⟩ hSame
      have hBare : after.bare = (served t peer line i offset data).bare :=
        bare_run_send_of_ready hBuilt hReady
      obtain ⟨_, _, _, _, hAdmits⟩ := hReady
      have hQueue : after.bare.network = t.network.queue line (.block i offset data) := by
        rw [hBare]
        rfl
      exact Network.queue_ne hAdmits _ (hQueue.symm.trans hSame)
  · exact fun data hReady => ⟨bare_run_send_of_ready hBuilt hReady, hReady.bytes⟩

/-- Six bytes in pieces of four and blocks of two, all of them there. -/
def sixBytes : FileSet :=
  { kind := .data
    pieceLength := 4
    totalLength := 6
    pieces := (FileSet.cut 4 6 2 [Digest.zero, Digest.zero]).map Piece.markVerified
    storage := .memory [1, 2, 3, 4, 5, 6] }

/-- A torrent of them, and a line with room for one message to its peer. -/
def sixBytesShared : Torrent :=
  { download := { Download.named Digest.zero 5 with
      fileSet := some sixBytes
      peers := .insert .empty "p" (.connected 0 5) }
    network := { lines := [{ capacity := 1 }] }
    events := { capacity := 0 }
    tree := { home := [] } }

/-- Three bytes of the first piece, across its two blocks. -/
theorem send_serves_acrossBlocks :
    (run (.send "p" 0 0 1 3) sixBytesShared).after.network.waiting 0 = [.block 0 1 [2, 3, 4]] ∧
      ((run (.send "p" 0 0 1 3) sixBytesShared).after.download.peers.find? "p").map (·.uploaded) =
        some 3 := by
  have hBuilt : ∀ fs, sixBytesShared.download.fileSet = some fs → fs.Built := by
    rintro fs hfs
    obtain rfl := Option.some.inj hfs
    refine ⟨.data, 4, 6, [Digest.zero, Digest.zero], 2, .memory [], _, by decide, by decide, rfl,
      rfl, rfl, rfl, rfl, fun _ => by decide⟩
  obtain ⟨fs, p, hAvailable, -⟩ :=
    (prepareSend_eq_ok hBuilt).mp (show prepareSend sixBytesShared.download 0 1 3 = .ok 1 from rfl)
  obtain rfl := Option.some.inj hAvailable.fileSet
  have hReady : Ready sixBytesShared 0 0 1 3 [2, 3, 4] :=
    ⟨_, p, hAvailable, rfl, { capacity := 1 }, rfl, rfl, by decide⟩
  obtain ⟨hBare, -, -⟩ := (send_serves hBuilt "p" 0 0 1 3).2.2.1 _ hReady
  constructor
  · have hNetwork := congrArg Torrent.network hBare
    exact congrArg (Network.waiting · 0) hNetwork
  · have hPeers := congrArg (·.download.peers) hBare
    exact congrArg (fun peers => (peers.find? "p").map (·.uploaded)) hPeers

end Job

end TorrentEngine
