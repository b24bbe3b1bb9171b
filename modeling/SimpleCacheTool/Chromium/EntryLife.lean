import SimpleCacheTool.Chromium.Acceptance
import SimpleCacheTool.Chromium.CloseEntry

namespace SimpleCacheTool.Chromium

open Fallible Segments LittleEndian SimpleCacheFormat

/-- Closed files that hold the streams, with every record in place. -/
structure OnDisk (key : Bytes) (s : Streams) (files : FileIndex → Option (List Byte)) : Prop where
  file0 : ∃ f : EntryFile, Accepted f ∧ files 0 = some f.toBytes.list ∧ f.key = key ∧
    f.stream0.list = s.stream0 ∧ f.stream1.list = s.stream1
  noFile1 : s.stream2 = none → files 1 = none
  file1 : ∀ data, s.stream2 = some data → ∃ d : Bytes, files 1 = some d.list ∧
    Tracks2 key.list data ∅ d.list

/-- What opening makes of the streams: a file of stream 2 without data is deleted. -/
def Streams.opened (s : Streams) : Streams :=
  if s.stream2.getD [] = [] then { s with stream2 := none } else s

/-- What the readers make of the files: the tool parses them to the streams without a warning, and the
browser opens the entry again, its file of stream 2 included, with the sizes of the streams. -/
structure ReadBack (key : Bytes) (s : Streams) (files : FileIndex → Option (List Byte)) : Prop where
  entry : ∃ (d : Bytes) (e : SimpleCacheEntry), files 0 = some d.list ∧
    SimpleCacheEntry.parse d true = .ok e ∧ e.key = some key ∧ e.stream0.list = s.stream0 ∧
    e.stream1.list = s.stream1 ∧ e.warnings = [] ∧ Opens d e
  noStream2 : s.stream2 = none → files 1 = none
  stream2 : ∀ data, s.stream2 = some data → ∃ (d x : Bytes) (eof : Eof), files 1 = some d.list ∧
    SimpleCacheEntry.Stream2.parse d = .ok { key := some key, data := some x, eof := some eof } ∧
    x.list = data ∧ Closes eof data
  reopens : ∀ known, known = none ∨ known = some key.list → ∀ full trailer : BitVec 32,
    ∃ t, Session.openFiles files known full trailer = .ok t ∧ t.stat = s.stat ∧
      t.Tracks key.list s.opened ∅

/-- A closed file of stream 2, piece by piece. -/
theorem pieces_of_tracks2 (key data file : List Byte) (h : Tracks2 key data ∅ file) :
    ∃ (hdr : SimpleFileHeader) (eof : Eof), hdr.Names key ∧ Closes eof data ∧
      file = [hdr.bytes, key, data, eof.bytes].flatten := by
  obtain ⟨hdr, hn, rest, rfl⟩ := h.front
  obtain ⟨eof, hc, hdrop⟩ := h.eof2 (Set.notMem_empty 2)
  rw [← front_length hdr, List.drop_left] at hdrop
  exact ⟨hdr, eof, hn, hc, by simp [hdrop]⟩

/-- A file of stream 2 with its record is the key, the data and the record to the tool. -/
theorem parse_tracks2 (key d : Bytes) (data : List Byte) (h : Tracks2 key.list data ∅ d.list) :
    ∃ (x : Bytes) (eof : Eof), SimpleCacheEntry.Stream2.parse d =
      .ok { key := some key, data := some x, eof := some eof } ∧ x.list = data ∧ Closes eof data := by
  obtain ⟨hdr, eof, hn, hc, hd⟩ := pieces_of_tracks2 key.list data d.list h
  have hkl := key.length_lt'
  have hlen : d.length = 48 + key.length + data.length := by
    rw [Bytes.length, hd]
    simp [Bytes.length]
    omega
  have hat (pre : List (List Byte)) (p : List Byte) (post : List (List Byte))
      (hp : [hdr.bytes, key.list, data, eof.bytes] = pre ++ p :: post) :
      seg d.list pre.flatten.length p.length = p := by
    have hs := seg_piece d.list 0 d.list.length pre p post (by rw [seg_full, hd, hp])
    rwa [Nat.zero_add] at hs
  have hkey := hat [hdr.bytes] key.list _ rfl
  have hdata := hat [hdr.bytes, key.list] data _ rfl
  have heof := hat [hdr.bytes, key.list, data] eof.bytes [] rfl
  simp only [List.flatten_cons, List.flatten_nil, List.append_nil, List.length_append,
    SimpleFileHeader.bytes_length, Eof.bytes_length] at hkey hdata heof
  have hhdr : SimpleFileHeader.ofBytes d.list = hdr := by
    rw [hd]
    exact hdr.ofBytes_append _
  have hmagic : wordAt 64 d.list 0 = SimpleCacheFormat.initialMagic :=
    (congrArg SimpleFileHeader.initialMagicNumber hhdr).trans hn.magic
  have hk : SimpleCacheEntry.keyLengthOf d = key.length := by
    have hw : wordAt 32 d.list 12 = BitVec.ofNat 32 key.list.length :=
      (congrArg SimpleFileHeader.keyLength hhdr).trans hn.keyLength
    rw [SimpleCacheEntry.keyLengthOf, hw, BitVec.toNat_ofNat, Bytes.length]
    exact Nat.mod_eq_of_lt (hkl.trans (by decide))
  have hlast : SimpleCacheEntry.lastEof d = eof := by
    rw [SimpleCacheEntry.lastEof, hlen]
    apply Eof.ofBytes_of_seg
    rw [← heof]
    congr 1
    simp only [Bytes.length]
    omega
  refine ⟨d.sub (24 + key.length) data.length, eof, ?_, hdata, hc⟩
  have hroom : 48 + SimpleCacheEntry.keyLengthOf d ≤ d.length := by omega
  have hkey' : d.sub 24 key.length = key := Bytes.ext hkey
  rw [SimpleCacheEntry.Stream2.parse_room d hmagic hroom, SimpleCacheEntry.Stream2.contents, hk, hlast,
    hkey', hlen, Nat.add_sub_cancel_left]

/-- With nothing owed, the files are closed ones. -/
theorem onDisk_of_tracks (key : Bytes) (s : Streams) (e : SimpleSynchronousEntry)
    (h : Tracks key.list s ∅ e)
    (hfit0 : 104 + key.length + s.stream1.length + s.stream0.length < 2 ^ 31)
    (hfit2 : 48 + key.length + (s.stream2.getD []).length < 2 ^ 31) : OnDisk key s e.files := by
  obtain ⟨file, hf, ht⟩ := h.file0
  obtain ⟨f, ha, hl, hkey, h0, h1⟩ := entryFile_of_tracks0 key s file ht hfit0
  refine ⟨⟨f, ha, hl ▸ hf, hkey, h0, h1⟩, h.noFile1, ?_⟩
  intro data hd
  obtain ⟨g, hg, ht2⟩ := h.file1 data hd
  have hlen := ht2.length
  rw [hd] at hfit2
  exact ⟨⟨g, lt_of_le_of_lt hlen hfit2⟩, hg, ht2⟩

theorem tracks0_toBytes (f : EntryFile) (h : Accepted f) :
    Tracks0 f.key.list f.stream0.list f.stream1.list ∅ f.toBytes.list := by
  let hdr : SimpleFileHeader :=
    ⟨SimpleCacheFormat.initialMagic, f.version, BitVec.ofNat 32 f.key.length, f.keyHash, f.headerPadding⟩
  have hheader : f.header = hdr.bytes := rfl
  have hfile : f.toBytes.list = hdr.bytes ++ f.key.list ++ f.stream1.list ++ (f.eof1.bytes ++
      (f.stream0.list ++ (shaBytes f.keySha256 ++ f.eof0.bytes))) := by
    change f.pieces.flatten = _
    rw [EntryFile.pieces, hheader]
    simp only [List.flatten_cons, List.flatten_nil, List.append_nil, List.append_assoc]
  refine ⟨⟨hdr, ⟨rfl, h.version, rfl, h.keyHash.symm⟩, ?_⟩, fun _ => ⟨f.eof1, ?_, f.seg_eof1⟩,
    fun _ => ⟨f.eof0, f.keySha256, ⟨⟨f.eof0_magic, h.crc0, ?_⟩, f.stream0_length, f.sha_flag, ?_⟩, ?_⟩⟩
  · rw [hfile]
    exact List.prefix_append _ _
  · exact ⟨f.eof1_magic, h.crc1, h.eof1_size⟩
  · rw [← f.stream0_length]
    exact f.stream0.length_lt'
  · intro x hx
    exact (h.sha x hx).symm
  · have hl := front_length hdr f.key.list f.stream1.list
    have hoff : 48 + f.key.list.length + f.stream1.list.length =
        (hdr.bytes ++ f.key.list ++ f.stream1.list ++ f.eof1.bytes).length := by
      rw [List.length_append, hl, f.eof1.bytes_length]
      omega
    rw [hfile, hoff, ← List.append_assoc _ f.eof1.bytes, List.drop_left]

/-- A file of stream 2 with its record is opened with the size of its data. -/
theorem stream2Size_tracks2 (key data file : List Byte) (s : Streams) (hs : s.Fits)
    (hk : key.length < 2 ^ 31) (h2 : s.stream2 = some data) (h : Tracks2 key data ∅ file) :
    stream2Size key.length s.stat.toSimpleEntryStat (some file) = data.length := by
  obtain ⟨hdr, eof, hn, hc, rfl⟩ := pieces_of_tracks2 key data file h
  have hd := hs.stream2
  rw [h2] at hd
  change data.length < 2 ^ 31 at hd
  have hlen : [hdr.bytes, key, data, eof.bytes].flatten.length = 48 + key.length + data.length := by
    simp
    omega
  have hsize : getDataSizeFromFileSize key.length
      (([hdr.bytes, key, data, eof.bytes].flatten.length : Nat) : Int) = (data.length : Int) := by
    rw [hlen, getDataSizeFromFileSize, sizeofSimpleFileHeader, sizeofSimpleFileEOF]
    exact int64_nat _ _ (by omega) (by omega)
  have hstat : FullEntryStat.mk s.stat.toSimpleEntryStat (data.length : Int) = s.stat := by
    rw [Streams.stat, h2]
    rfl
  have hoff := s.getEOFOffset_stat hs key.length 2 (by decide) hk
  have hend : s.eofOffset key.length 2 = 24 + key.length + data.length := by
    change 24 + key.length + (s.stream2.getD []).length = _
    rw [h2]
    rfl
  rw [hend] at hoff
  have hseg : seg [hdr.bytes, key, data, eof.bytes].flatten (24 + key.length + data.length) 24 =
      eof.bytes := by
    have hp := seg_piece [hdr.bytes, key, data, eof.bytes].flatten 0 _ [hdr.bytes, key, data] eof.bytes
      [] (seg_full _)
    simpa [Nat.add_assoc] using hp
  have hrec := getEOFRecordData_in [hdr.bytes, key, data, eof.bytes].flatten {} _ _ eof hoff (of_empty _)
    (by omega) hseg hc.magic hc.size
  rw [stream2Size]
  simp only [hsize, hstat, hrec]
  split_ifs <;> omega

theorem Streams.opened_eq (s : Streams) : s.opened.stream0 = s.stream0 ∧
    s.opened.stream1 = s.stream1 ∧ s.opened.stat = s.stat ∧ (s.Fits → s.opened.Fits) := by
  rw [opened]
  split_ifs with h
  · refine ⟨rfl, rfl, ?_, fun hf => ⟨hf.stream0, hf.stream1, Nat.two_pow_pos 31⟩⟩
    rw [stat, stat, h]
    rfl
  · exact ⟨rfl, rfl, rfl, id⟩

theorem stream2Size_onDisk (key : Bytes) (s : Streams) (files : FileIndex → Option (List Byte))
    (h : OnDisk key s files) (hs : s.Fits) :
    stream2Size key.list.length s.stat.toSimpleEntryStat (files 1) = (s.stream2.getD []).length := by
  cases h2 : s.stream2 with
  | none =>
    rw [h.noFile1 h2]
    rfl
  | some data =>
    obtain ⟨d, hf, ht⟩ := h.file1 data h2
    rw [hf]
    exact stream2Size_tracks2 key.list data d.list s hs key.length_lt' h2 ht

/-- The files left after opening. -/
theorem tracks_opened (key : Bytes) (s : Streams) (files : FileIndex → Option (List Byte))
    (h : OnDisk key s files) (needed : FileIndex → Bool) :
    Tracks key.list s.opened ∅
      { key := key.list
        files := if ((s.stream2.getD []).length : Int) = 0 then Function.update files 1 none else files
        headerAndKeyCheckNeeded := needed } := by
  obtain ⟨f, ha, hf, rfl, h0, h1⟩ := h.file0
  have ht := tracks0_toBytes f ha
  rw [h0, h1] at ht
  have hz : ((s.stream2.getD []).length : Int) = 0 ↔ s.stream2.getD [] = [] := by
    rw [Int.natCast_eq_zero, List.length_eq_zero_iff]
  simp only [hz, Streams.opened]
  split_ifs with he
  · refine ⟨rfl, ⟨_, hf, ht⟩, fun _ => by simp only [Function.update_self], ?_⟩
    intro data hd
    cases hd
  · refine ⟨rfl, ⟨_, hf, ht⟩, h.noFile1, ?_⟩
    intro data hd
    obtain ⟨d, hf1, ht2⟩ := h.file1 data hd
    exact ⟨_, hf1, ht2⟩

/-- The browser opens closed files to a session that follows their streams. -/
theorem tracks_open (key : Bytes) (s : Streams) (files : FileIndex → Option (List Byte))
    (h : OnDisk key s files) (hs : s.Fits) (known : Option (List Byte))
    (hknown : known = none ∨ known = some key.list) (full trailer : BitVec 32) :
    ∃ t, Session.openFiles files known full trailer = .ok t ∧ t.Tracks key.list s.opened ∅ := by
  obtain ⟨f, ha, hf, rfl, h0, h1⟩ := h.file0
  obtain ⟨o, hopen, ho⟩ := initializeForOpen_toBytes f ha known hknown full trailer
  obtain ⟨e0, e1, estat, efits⟩ := s.opened_eq
  have hstat : o.entryStat = s.stat.toSimpleEntryStat := by
    rw [ho.stat, statOf, Streams.stat, ← h0, ← h1]
    rfl
  have hok : Session.openFiles files known full trailer = .ok
      ⟨⟨f.key.list, if ((s.stream2.getD []).length : Int) = 0 then Function.update files 1 none else files,
        fun i => if i = 0 then o.headerAndKeyCheckNeeded else true⟩, s.stat, o.stream0.data⟩ := by
    rw [Session.openFiles, SimpleSynchronousEntry.initializeForOpen, hf]
    simp only [hopen, ok_bind, ho.key, hstat, stream2Size_onDisk f.key s files h hs]
    rfl
  refine ⟨_, hok, tracks_opened f.key s files h _, estat.symm, ?_, efits hs⟩
  rw [e0, ho.stream0, ← h0]
  exact List.take_left

theorem readBack_of_onDisk (key : Bytes) (s : Streams) (files : FileIndex → Option (List Byte))
    (h : OnDisk key s files) (hs : s.Fits) : ReadBack key s files := by
  obtain ⟨f, ha, hf, hkey, h0, h1⟩ := h.file0
  refine ⟨⟨f.toBytes, f.parsed true, hf, f.parse_toBytes true, congrArg some hkey, h0, h1, ?_,
    opens_of_accepted f ha true⟩, h.noFile1, ?_, ?_⟩
  · refine (SimpleCacheEntry.problems_eq_nil f.unverified f.key).mpr ⟨ha.keyHash, ha.crc1, ha.crc0, ?_⟩
    intro sha hs _
    exact Bytes.ext (ha.sha sha hs)
  · intro data hd
    obtain ⟨d, hf1, ht⟩ := h.file1 data hd
    obtain ⟨x, eof, hp, hx, hc⟩ := parse_tracks2 key d data ht
    exact ⟨d, x, eof, hf1, hp, hx, hc⟩
  · intro known hknown full trailer
    obtain ⟨t, hopen, ht⟩ := tracks_open key s files h hs known hknown full trailer
    exact ⟨t, hopen, ht.stat.trans s.opened_eq.2.2.1, ht⟩

/-- The records written on closing are right and leave nothing owed. -/
structure Settles (records : List CRCRecord) (s : Streams) (owed : Set Nat) : Prop where
  right : ∀ r ∈ records, r.Right s
  owed : ∀ i ∈ owed, ∃ r ∈ records, r.index = i

/-- The sizes of closed files are ints. -/
structure Streams.FitFiles (s : Streams) (key : Bytes) : Prop where
  file0 : 104 + key.length + s.stream1.length + s.stream0.length < 2 ^ 31
  file1 : 48 + key.length + (s.stream2.getD []).length < 2 ^ 31

theorem Streams.FitFiles.fits (s : Streams) (key : Bytes) (h : s.FitFiles key) : s.Fits := by
  have h0 := h.file0
  have h1 := h.file1
  exact ⟨by omega, by omega, by omega⟩

/-- Any run of operations and the closing behind it: the files hold what the streams have become. -/
theorem session_onDisk (ops : List EntryOp) (records : List CRCRecord) (key : Bytes) (t : Session)
    (s : Streams) (owed : Set Nat) (h : t.Tracks key.list s owed) (hops : ∀ op ∈ ops, op.Fits)
    (hr : Settles records (ops.foldl EntryOp.apply s) (owed ∪ {i | ∃ op ∈ ops, i ∈ op.owes}))
    (hfit : (ops.foldl EntryOp.apply s).FitFiles key) :
    ∃ t' files, run Session.step t ops = .ok t' ∧ t'.close records = .ok files ∧
      OnDisk key (ops.foldl EntryOp.apply s) files := by
  obtain ⟨t', hrun, h'⟩ := tracks_run ops key.list key.length_lt' hops t s owed h
  obtain ⟨e', hclose, he'⟩ := t'.entry.close_tracks records t'.stream0Data key.list _ _ hr.right h'.fits
    key.length_lt' h'.stream0 h'.entry hr.owed
  refine ⟨t', e'.files, hrun, ?_, onDisk_of_tracks key _ e' he' hfit.file0 hfit.file1⟩
  rw [Session.close, h'.stat, hclose]

/-- Everything the browser does with an entry between opening and closing it. -/
structure Visit where
  known : Bool
  fullPrefetchSize : BitVec 32
  trailerPrefetchSize : BitVec 32
  ops : List EntryOp
  records : List CRCRecord

namespace Visit

/-- The files after a visit; none when a step fails. -/
def run (v : Visit) (key : Bytes) (files : FileIndex → Option (List Byte)) :
    Option (FileIndex → Option (List Byte)) := do
  let t ← (Session.openFiles files (if v.known then some key.list else none) v.fullPrefetchSize
    v.trailerPrefetchSize).toOption
  let t ← (Fallible.run Session.step t v.ops).toOption
  (t.close v.records).toOption

def apply (s : Streams) (v : Visit) : Streams := v.ops.foldl EntryOp.apply s.opened

/-- Requests within range, right records for all that was written, and files that stay within range. -/
structure Sound (v : Visit) (key : Bytes) (s : Streams) : Prop where
  ops : ∀ op ∈ v.ops, op.Fits
  settles : Settles v.records (v.apply s) {i | ∃ op ∈ v.ops, i ∈ op.owes}
  fits : (v.apply s).FitFiles key

theorem run_onDisk (v : Visit) (key : Bytes) (s : Streams) (files : FileIndex → Option (List Byte))
    (hv : v.Sound key s) (hs : s.Fits) (h : OnDisk key s files) :
    ∃ files', v.run key files = some files' ∧ OnDisk key (v.apply s) files' := by
  have hknown : (if v.known then some key.list else none) = none ∨
      (if v.known then some key.list else none) = some key.list := by
    cases v.known
    exacts [.inl rfl, .inr rfl]
  obtain ⟨t, hopen, ht⟩ := tracks_open key s files h hs _ hknown v.fullPrefetchSize
    v.trailerPrefetchSize
  have hsettles := hv.settles
  rw [← Set.empty_union {i | ∃ op ∈ v.ops, i ∈ op.owes}] at hsettles
  obtain ⟨t', files', hrun, hclose, hdisk⟩ := session_onDisk v.ops v.records key t s.opened ∅ ht hv.ops
    hsettles hv.fits
  exact ⟨files', by simp [run, hopen, hrun, hclose, Except.toOption], hdisk⟩

/-- Each visit finds what the last one left. -/
def AllSound (key : Bytes) : Streams → List Visit → Prop
  | _, [] => True
  | s, v :: vs => v.Sound key s ∧ AllSound key (v.apply s) vs

theorem runs_onDisk (vs : List Visit) (key : Bytes) (s : Streams)
    (files : FileIndex → Option (List Byte)) (hvs : AllSound key s vs) (hs : s.Fits)
    (h : OnDisk key s files) :
    ∃ files', vs.foldlM (fun f v => v.run key f) files = some files' ∧
      OnDisk key (vs.foldl (fun s v => v.apply s) s) files' ∧
      (vs.foldl (fun s v => v.apply s) s).Fits := by
  induction vs generalizing s files with
  | nil => exact ⟨files, rfl, h, hs⟩
  | cons v vs ih =>
    obtain ⟨f1, hrun, h1⟩ := v.run_onDisk key s files hvs.1 hs h
    obtain ⟨f2, hruns, h2⟩ := ih _ f1 hvs.2 hvs.1.fits.fits h1
    exact ⟨f2, by rw [List.foldlM_cons, hrun]; exact hruns, h2⟩

end Visit

/-- An entry that the browser creates and visits any number of times is at every close what the
requests say, to the tool and to the browser. -/
theorem created_readBack (key : Bytes) (ops : List EntryOp) (records : List CRCRecord) (vs : List Visit)
    (hops : ∀ op ∈ ops, op.Fits)
    (hr : Settles records (ops.foldl EntryOp.apply {}) ({0, 1} ∪ {i | ∃ op ∈ ops, i ∈ op.owes}))
    (hfit : (ops.foldl EntryOp.apply {}).FitFiles key)
    (hvs : Visit.AllSound key (ops.foldl EntryOp.apply {}) vs) :
    ∃ t files files', run Session.step (Session.create key.list) ops = .ok t ∧
      t.close records = .ok files ∧ vs.foldlM (fun f v => v.run key f) files = some files' ∧
      ReadBack key (vs.foldl (fun s v => v.apply s) (ops.foldl EntryOp.apply {})) files' := by
  obtain ⟨t, files, hrun, hclose, hdisk⟩ := session_onDisk ops records key _ {} {0, 1}
    (tracks_create key.list) hops hr hfit
  obtain ⟨files', hvisits, hdisk', hfits⟩ := Visit.runs_onDisk vs key _ files hvs hfit.fits hdisk
  exact ⟨t, files, files', hrun, hclose, hvisits, readBack_of_onDisk key _ files' hdisk' hfits⟩

/-- Data for stream 1, headers for stream 0, and stream 2 from the sixth byte on. -/
def smallOps : List EntryOp :=
  [.writeData ⟨1, 0, [1, 2, 3], 0#32, false, false, true⟩, .setStream0 [7],
    .writeData ⟨2, 5, [9], 0#32, false, false, false⟩]

def smallRecords : List CRCRecord :=
  [⟨0, false, 0#32⟩, ⟨2, false, 0#32⟩, ⟨1, true, crc32Of [1, 2, 3]⟩]

/-- Stream 1 cut down to a new second byte. -/
def smallVisit : Visit where
  known := true
  fullPrefetchSize := 0#32
  trailerPrefetchSize := 24#32
  ops := [.writeData ⟨1, 1, [8], 0#32, true, false, false⟩]
  records := [⟨1, false, 0#32⟩, ⟨0, false, 0#32⟩]

theorem smallStreams : smallOps.foldl EntryOp.apply {} = ⟨[7], [1, 2, 3], some [0, 0, 0, 0, 0, 9]⟩ :=
  rfl

theorem smallVisit_sound (s : Streams) (h0 : s.stream0.length < 100)
    (h2 : (s.stream2.getD []).length < 100) : smallVisit.Sound SimpleCacheEntry.smallKey s := by
  obtain ⟨e0, -, estat, -⟩ := s.opened_eq
  refine ⟨?_, ⟨?_, ?_⟩, ?_, ?_⟩
  · intro op hop
    rw [List.mem_singleton.mp hop]
    exact ⟨.inl rfl, by decide, rfl⟩
  · intro r hr
    simp only [smallVisit, List.mem_cons, List.not_mem_nil, or_false] at hr
    rcases hr with rfl | rfl
    · exact ⟨by decide, fun h => absurd h (by decide)⟩
    · exact ⟨by decide, fun h => absurd h (by decide)⟩
  · rintro i ⟨op, hop, hi⟩
    rw [List.mem_singleton.mp hop] at hi
    simp only [EntryOp.owes, if_true, List.mem_cons, List.not_mem_nil, or_false] at hi
    rcases hi with rfl | rfl
    · exact ⟨⟨0, false, 0#32⟩, by simp [smallVisit], rfl⟩
    · exact ⟨⟨1, false, 0#32⟩, by simp [smallVisit], rfl⟩
  · have hp := Extents.put_length (0 : Byte) s.opened.stream1 [8] 1 true
    change 104 + 1 + (Extents.put 0 s.opened.stream1 1 [8] true).length + s.opened.stream0.length < 2 ^ 31
    rw [hp, e0]
    simp
    omega
  · have hd : ((s.opened.stream2.getD []).length : Int) = (s.stream2.getD []).length :=
      congrArg FullEntryStat.dataSize2 estat
    change 48 + 1 + (s.opened.stream2.getD []).length < 2 ^ 31
    omega

theorem created_readBack_small : ∃ t files files',
    run Session.step (Session.create SimpleCacheEntry.smallKey.list) smallOps = .ok t ∧
      t.close smallRecords = .ok files ∧
      [smallVisit].foldlM (fun f v => v.run SimpleCacheEntry.smallKey f) files = some files' ∧
      ReadBack SimpleCacheEntry.smallKey
        ([smallVisit].foldl (fun s v => v.apply s) (smallOps.foldl EntryOp.apply {})) files' := by
  refine created_readBack SimpleCacheEntry.smallKey smallOps smallRecords [smallVisit] ?_ ?_ ?_ ?_
  · intro op hop
    simp only [smallOps, List.mem_cons, List.not_mem_nil, or_false] at hop
    rcases hop with rfl | rfl | rfl <;> simp [EntryOp.Fits]
  · rw [smallStreams]
    refine ⟨?_, ?_⟩
    · intro r hr
      simp only [smallRecords, List.mem_cons, List.not_mem_nil, or_false] at hr
      rcases hr with rfl | rfl | rfl
      · exact ⟨by decide, fun h => absurd h (by decide)⟩
      · exact ⟨by decide, fun h => absurd h (by decide)⟩
      · exact ⟨by decide, fun _ => rfl⟩
    · intro i hi
      have h3 : i = 0 ∨ i = 1 ∨ i = 2 := by
        simp [smallOps, EntryOp.owes] at hi
        omega
      rcases h3 with rfl | rfl | rfl
      · exact ⟨⟨0, false, 0#32⟩, by simp [smallRecords], rfl⟩
      · exact ⟨⟨1, true, crc32Of [1, 2, 3]⟩, by simp [smallRecords], rfl⟩
      · exact ⟨⟨2, false, 0#32⟩, by simp [smallRecords], rfl⟩
  · rw [smallStreams]
    exact ⟨by decide, by decide⟩
  · rw [smallStreams]
    exact ⟨smallVisit_sound _ (by decide) (by decide), trivial⟩

/-- What the tool's `serialize` functions wrote for one entry. -/
def toolFiles (out : Bytes) (out2 : Option Bytes) : FileIndex → Option (List Byte) :=
  fun i => if i.val = 0 then some out.list else out2.map Bytes.list

/-- A file of stream 2 that the tool wrote has its record in place. -/
theorem tracks2_written (key data d : Bytes)
    (hd : d.list = (SimpleCacheEntry.Stream2.written key data).flatten) :
    Tracks2 key.list data.list ∅ d.list := by
  have hfile : d.list = (newHeader key.list).bytes ++ key.list ++ data.list ++
      (SimpleCacheEntry.Stream2.newEof data).bytes := by
    rw [hd]
    simp only [SimpleCacheEntry.Stream2.written, List.flatten_cons, List.flatten_nil, List.append_nil,
      List.append_assoc]
    rfl
  have hl := front_length (newHeader key.list) key.list data.list
  refine ⟨⟨_, newHeader_names key.list, by rw [hfile]; exact List.prefix_append _ _⟩, ?_,
    fun _ => ⟨SimpleCacheEntry.Stream2.newEof data, ⟨rfl, fun _ => rfl, ?_⟩, ?_⟩⟩
  · rw [hfile, List.length_append, hl, Eof.bytes_length]
    omega
  · change (0#32).toNat < 2 ^ 31
    decide
  · rw [hfile, ← hl, List.drop_left]

/-- The browser goes on from the tool's files as from its own. -/
theorem serialized_readBack (e : SimpleCacheEntry) (key : Bytes) (w : Bool) (data2 : Option Bytes)
    (vs : List Visit) (hk : e.key = some key) (hm : e.initialMagic = SimpleCacheFormat.initialMagic)
    (hv : e.version = entryVersion) (hs : e.writtenSize key w < 2 ^ 31)
    (h2 : ∀ data ∈ data2, 48 + key.length + data.length < 2 ^ 31)
    (hvs : Visit.AllSound key ⟨e.stream0.list, e.stream1.list, data2.map Bytes.list⟩ vs) :
    ∃ out e' out2 files', e.serialize w = .ok (out, e') ∧
      data2.mapM (fun data => SimpleCacheEntry.Stream2.serialize { key := some key, data := some data }) =
        .ok out2 ∧
      vs.foldlM (fun f v => v.run key f) (toolFiles out out2) = some files' ∧
      ReadBack key (vs.foldl (fun s v => v.apply s)
        ⟨e.stream0.list, e.stream1.list, data2.map Bytes.list⟩) files' := by
  have hser := e.serialize_file key w hk hm hs
  have hacc := e.file_accepted key w hv hs
  obtain ⟨out2, hout2, hfile2⟩ : ∃ out2 : Option Bytes, data2.mapM
      (fun data => SimpleCacheEntry.Stream2.serialize { key := some key, data := some data }) = .ok out2 ∧
      (data2 = none → out2 = none) ∧ ∀ data, data2 = some data → ∃ d, out2 = some d ∧
        d.list = (SimpleCacheEntry.Stream2.written key data).flatten := by
    cases data2 with
    | none => exact ⟨none, rfl, fun _ => rfl, fun data hd => by cases hd⟩
    | some data =>
      have hlen := SimpleCacheEntry.Stream2.written_length key data
      have hfit := h2 data rfl
      rw [← hlen] at hfit
      have hd := SimpleCacheEntry.Stream2.serialize_fits key data hfit
      refine ⟨some ⟨_, hfit⟩, ?_, (fun hn => by cases hn), fun x hx => ?_⟩
      · simp only [Option.mapM_some, hd]
        rfl
      · obtain rfl := Option.some.inj hx
        exact ⟨_, rfl, rfl⟩
  have hdisk : OnDisk key ⟨e.stream0.list, e.stream1.list, data2.map Bytes.list⟩
      (toolFiles (e.file key w hs).toBytes out2) := by
    refine ⟨⟨e.file key w hs, hacc, rfl, rfl, rfl, rfl⟩, ?_, ?_⟩
    · intro hn
      rw [Option.map_eq_none_iff] at hn
      rw [toolFiles, hfile2.1 hn]
      rfl
    · intro data hd
      obtain ⟨x, hx, rfl⟩ := Option.map_eq_some_iff.mp hd
      obtain ⟨d, hd2, hl⟩ := hfile2.2 x hx
      exact ⟨d, by rw [toolFiles, hd2]; rfl, tracks2_written key x d hl⟩
  have hfits : Streams.Fits ⟨e.stream0.list, e.stream1.list, data2.map Bytes.list⟩ := by
    refine ⟨e.stream0.length_lt, e.stream1.length_lt, ?_⟩
    cases data2 with
    | none => exact Nat.two_pow_pos 31
    | some data => exact data.length_lt
  obtain ⟨files', hvisits, hdisk', hfits'⟩ := Visit.runs_onDisk vs key _ _ hvs hfits hdisk
  exact ⟨_, _, out2, files', hser, hout2, hvisits, readBack_of_onDisk key _ files' hdisk' hfits'⟩

theorem serialized_readBack_small : ∃ out e' out2 files',
    SimpleCacheEntry.smallEntry.serialize true = .ok (out, e') ∧
      (some SimpleCacheEntry.smallKey).mapM (fun data => SimpleCacheEntry.Stream2.serialize
        { key := some SimpleCacheEntry.smallKey, data := some data }) = .ok out2 ∧
      [smallVisit].foldlM (fun f v => v.run SimpleCacheEntry.smallKey f) (toolFiles out out2) =
        some files' ∧
      ReadBack SimpleCacheEntry.smallKey ([smallVisit].foldl (fun s v => v.apply s)
        ⟨SimpleCacheEntry.smallEntry.stream0.list, SimpleCacheEntry.smallEntry.stream1.list,
          some SimpleCacheEntry.smallKey.list⟩) files' :=
  serialized_readBack SimpleCacheEntry.smallEntry SimpleCacheEntry.smallKey true
    (some SimpleCacheEntry.smallKey) [smallVisit] rfl rfl rfl (by decide)
    (fun data hd => by rw [← Option.some.inj hd]; decide)
    ⟨smallVisit_sound _ (by decide) (by decide), trivial⟩

end SimpleCacheTool.Chromium
