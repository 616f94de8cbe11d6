import Zblob.Index

/-!
The framing of a chunk on the wire and at rest: raw bytes, or a zstd frame behind its length.
-/

set_option autoImplicit false

namespace Zblob

inductive ChunkCompression where
  | none
  | zstd (level : Int32)
  deriving DecidableEq

abbrev Compress := Option (Bytes → Int32 → Option Bytes)

def pack (compress : Compress) (bytes : Bytes) : ChunkCompression → Result Bytes
  | .none => .ok (0 :: bytes)
  | .zstd level =>
    match compress with
    | none => .error (.malformedMessage
        "zstd compression requested but zblob was built without the `zstd` feature")
    | some compress =>
      match compress bytes level with
      | none => .error .io
      | some compressed =>
        if compressed.length + 5 > bytes.length then .ok (0 :: bytes)
        else .ok (1 :: (Ext.toLe 4 bytes.length ++ compressed))

def Compress.Undone (compress : Compress) (zstd : Zstd) : Prop :=
  ∀ c, compress = some c → ∃ d, zstd = some d ∧
    ∀ data level out, c data level = some out → d out data.length = some data

section Pack

variable {compress : Compress} {zstd : Zstd} {bytes packed : Bytes} {compression : ChunkCompression}

theorem pack_ok (h : pack compress bytes compression = .ok packed) :
    packed = 0 :: bytes ∨ ∃ c level out, compress = some c ∧ c bytes level = some out ∧
      out.length + 5 ≤ bytes.length ∧ packed = 1 :: (Ext.toLe 4 bytes.length ++ out) := by
  cases compression with
  | none =>
    cases h
    exact .inl rfl
  | zstd level =>
    simp only [pack] at h
    split at h
    · cases h
    · rename_i c
      split at h
      · cases h
      · rename_i out hout
        split at h
        · cases h
          exact .inl rfl
        · cases h
          exact .inr ⟨c, level, out, rfl, hout, by omega, rfl⟩

theorem pack_length (h : pack compress bytes compression = .ok packed) :
    packed.length ≤ bytes.length + 1 + 4 := by
  rcases pack_ok h with rfl | ⟨c, level, out, -, -, hlen, rfl⟩
  · simp
  · simp only [List.length_cons, List.length_append, Ext.toLe_length]
    omega

theorem tryUnpack_frame {d : Bytes → Nat → Option Bytes} {out : Bytes}
    (hmax : bytes.length ≤ maxUnpacked)
    (hd : d out bytes.length = some bytes) :
    tryUnpack (some d) (1 :: (Ext.toLe 4 bytes.length ++ out)) = .ok bytes := by
  have hle : Ext.fromLe (Ext.toLe 4 bytes.length) = bytes.length := by
    rw [Ext.fromLe_toLe]
    exact Nat.mod_eq_of_lt (by unfold maxUnpacked at hmax; omega)
  have htake : (Ext.toLe 4 bytes.length ++ out).take 4 = Ext.toLe 4 bytes.length :=
    List.take_left' (Ext.toLe_length _ _)
  have hdrop : (Ext.toLe 4 bytes.length ++ out).drop 4 = out :=
    List.drop_left' (Ext.toLe_length _ _)
  simp only [tryUnpack]
  rw [htake, hdrop, hle, if_neg (by simp), if_neg (by omega), hd]
  simp

theorem tryUnpack_pack (hundone : compress.Undone zstd) (hmax : bytes.length ≤ maxUnpacked)
    (h : pack compress bytes compression = .ok packed) : tryUnpack zstd packed = .ok bytes := by
  rcases pack_ok h with rfl | ⟨c, level, out, hc, hout, -, rfl⟩
  · simp only [tryUnpack]
    rw [if_neg (by omega)]
  · obtain ⟨d, rfl, hd⟩ := hundone c hc
    exact tryUnpack_frame hmax (hd bytes level out hout)

end Pack

end Zblob
