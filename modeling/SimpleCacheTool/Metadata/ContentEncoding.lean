import SimpleCacheTool.Java.Text

namespace SimpleCacheTool

open Fallible

namespace ContentEncoding

def gzipName : JString := .lit "gzip"
def deflateName : JString := .lit "deflate"

/-- Trims, lowercases and drops parameters; null is `none`. -/
def normalize (jdk : Jdk) : Option JString → Java (Option JString)
  | none => .ok none
  | some encoding => do
    let e := encoding.trim.toLowerCase jdk.toLowerCase
    let e ← match e.indexOfChar 0x3b#16 0 with
      | some semi => (e.substring 0 semi).map JString.trim
      | none => .ok e
    .ok (if e.isEmpty then none else some e)

def isSupported (jdk : Jdk) (encoding : Option JString) : Java Bool := do
  let e ← normalize jdk encoding
  .ok (e = some gzipName ∨ e = some deflateName)

def isCompressed (jdk : Jdk) (encoding : Option JString) : Java Bool := isSupported jdk encoding

/-- The stream as an array. Running out of memory is an `Error`, which no caller catches. -/
def toByteArray (out : List Byte) : Java Bytes :=
  if h : out.length < 2 ^ 31 then .ok ⟨out, h⟩ else .error .outOfMemory

/-- `readAll`; `none` when the stream throws. -/
def readAll (stream : List Byte × Bool) : Java (Option Bytes) := do
  let bytes ← toByteArray stream.1
  .ok (if stream.2 then some bytes else none)

/-- A malformed stream gives `none`. -/
def decode (jdk : Jdk) (data : Bytes) (encoding : Option JString) : Java (Option Bytes) := do
  let e ← normalize jdk encoding
  if e = some gzipName then readAll (jdk.gunzip data.list)
  else if e = some deflateName then readAll (jdk.inflate data.list)
  else .ok (some data)

/-- What an encoder wrote; `none` when it threw. -/
def written : Option (List Byte) → Java (Option Bytes)
  | none => .ok none
  | some out => (toByteArray out).map some

def encode (jdk : Jdk) (data : Bytes) (encoding : Option JString) : Java (Option Bytes) := do
  let e ← normalize jdk encoding
  if e = some gzipName then written (jdk.gzip data.list)
  else if e = some deflateName then written (jdk.deflate data.list)
  else .ok (some data)

/-! The coder behind a name. -/

theorem normalize_ok (jdk : Jdk) (encoding : Option JString) :
    ∃ name, normalize jdk encoding = .ok name := by
  cases encoding with
  | none => exact ⟨none, rfl⟩
  | some encoding =>
    unfold normalize
    dsimp only
    generalize encoding.trim.toLowerCase jdk.toLowerCase = e
    cases hi : e.indexOfChar 0x3b#16 0 with
    | none =>
      dsimp only
      rw [ok_bind]
      exact ⟨_, rfl⟩
    | some semi =>
      have hsub : e.substring 0 semi = .ok ((e.take semi).drop 0) :=
        if_pos ⟨Nat.zero_le semi, JString.indexOf_le _ _ _ _ hi⟩
      dsimp only
      rw [hsub, Except.map, ok_bind]
      exact ⟨_, rfl⟩

def encoder (jdk : Jdk) (name : Option JString) : Option (List Byte → Option (List Byte)) :=
  if name = some gzipName then some jdk.gzip
  else if name = some deflateName then some jdk.deflate
  else none

def decoder (jdk : Jdk) (name : Option JString) : Option (List Byte → List Byte × Bool) :=
  if name = some gzipName then some jdk.gunzip
  else if name = some deflateName then some jdk.inflate
  else none

theorem isCompressed_eq (jdk : Jdk) (encoding name : Option JString)
    (h : normalize jdk encoding = .ok name) :
    isCompressed jdk encoding = .ok (decoder jdk name).isSome := by
  rw [isCompressed, isSupported, h, ok_bind, decoder]
  split_ifs with hg hd
  · simp [hg]
  · simp [hd]
  · simp [hg, hd]

theorem decode_eq (jdk : Jdk) (data : Bytes) (encoding name : Option JString)
    (h : normalize jdk encoding = .ok name) : decode jdk data encoding =
      match decoder jdk name with
      | some g => readAll (g data.list)
      | none => .ok (some data) := by
  rw [decode, h, ok_bind, decoder]
  split_ifs <;> rfl

theorem encode_eq (jdk : Jdk) (data : Bytes) (encoding name : Option JString)
    (h : normalize jdk encoding = .ok name) : encode jdk data encoding =
      match encoder jdk name with
      | some f => written (f data.list)
      | none => .ok (some data) := by
  rw [encode, h, ok_bind, encoder]
  split_ifs <;> rfl

theorem toByteArray_of_lt (out : List Byte) (h : out.length < 2 ^ 31) :
    toByteArray out = .ok ⟨out, h⟩ := dif_pos h

theorem readAll_ok_iff (stream : List Byte × Bool) :
    (∃ r, readAll stream = .ok r) ↔ stream.1.length < 2 ^ 31 := by
  rw [readAll]
  by_cases h : stream.1.length < 2 ^ 31
  · rw [toByteArray_of_lt _ h, ok_bind]
    exact ⟨fun _ => h, fun _ => ⟨_, rfl⟩⟩
  · have hbig : toByteArray stream.1 = .error .outOfMemory := dif_neg h
    rw [hbig, error_bind]
    simp only [h, iff_false, not_exists]
    intro r hr
    cases hr

/-- The library's encoders do not fail, and its decoders read back what they wrote. -/
structure Lawful (jdk : Jdk) : Prop where
  gzip : ∀ data, ∃ out, jdk.gzip data = some out ∧ jdk.gunzip out = (data, true)
  deflate : ∀ data, ∃ out, jdk.deflate data = some out ∧ jdk.inflate out = (data, true)

theorem storedJdk_lawful : Lawful storedJdk :=
  ⟨fun data => ⟨data, rfl, rfl⟩, fun data => ⟨data, rfl, rfl⟩⟩

/-- The data as the coder behind a name writes it; `none` when it fails. -/
def encoded (jdk : Jdk) (name : Option JString) (data : List Byte) : Option (List Byte) :=
  match encoder jdk name with
  | some f => f data
  | none => some data

/-- Either there is no coder, or its two directions fit together. -/
theorem coder_cases (jdk : Jdk) (h : Lawful jdk) (name : Option JString) :
    (encoder jdk name = none ∧ decoder jdk name = none) ∨
    ∃ f g, encoder jdk name = some f ∧ decoder jdk name = some g ∧
      ∀ data, ∃ out, f data = some out ∧ g out = (data, true) := by
  rw [encoder, decoder]
  split_ifs
  · exact .inr ⟨_, _, rfl, rfl, h.gzip⟩
  · exact .inr ⟨_, _, rfl, rfl, h.deflate⟩
  · exact .inl ⟨rfl, rfl⟩

end ContentEncoding

end SimpleCacheTool
