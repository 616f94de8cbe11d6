import Zblob.DirStoreMap

/-!
A directory store over files of any content: what `has` promises of a following `get`, and
which files `scrub` removes.
-/

set_option autoImplicit false

namespace Zblob

namespace DirStore

variable (hash : Bytes → Hash) (zstd : Zstd) (compress : Compress) (aead : Cipher) (s : DirStore)

def Oversized (h : Hash) : Prop :=
  ∃ rest, s.files.lookup (path h) = some (0 :: rest) ∧ maxUnpacked < rest.length

/-- A store says that it has a chunk when, and only when, reading it next gives bytes. -/
def PresenceHolds (h : Hash) : Prop :=
  s.has zstd aead h = true ↔ ∃ bytes, (s.get hash zstd aead h).1 = some bytes

theorem decodeAtRest_raw (rest : Bytes) (h : Hash) :
    s.decodeAtRest zstd aead (0 :: rest) h = if rest.length > maxUnpacked then .error .corrupt
      else .ok rest := by
  rw [decodeAtRest, if_neg (by simp)]
  rfl

variable {hash zstd compress aead s}

theorem get_some_iff (hverify : s.verifyOnRead = false) (h : Hash) :
    (∃ bytes, (s.get hash zstd aead h).1 = some bytes) ↔
      ∃ packed bytes, s.files.lookup (path h) = some packed ∧
      s.decodeAtRest zstd aead packed h = .ok bytes := by
  unfold get
  cases hfile : s.files.lookup (path h) with
  | none => simp
  | some packed =>
    cases hdecode : s.decodeAtRest zstd aead packed h with
    | error e => cases e <;> simp [hdecode]
    | ok bytes => simp [hdecode, hverify]

theorem presence_iff (hverify : s.verifyOnRead = false) (h : Hash) :
    s.PresenceHolds hash zstd aead h ↔ ¬ s.Oversized h := by
  unfold PresenceHolds Oversized
  rw [get_some_iff hverify]
  unfold has
  cases hfile : s.files.lookup (path h) with
  | none => simp
  | some packed =>
    simp only [Option.some.injEq, exists_and_left, exists_eq_left']
    split
    · rename_i hnone
      cases hnone
    · rename_i hempty
      cases hempty
      have hdecode : s.decodeAtRest zstd aead [] h = .error .corrupt := rfl
      simp [hdecode]
    · rename_i rest hraw
      cases hraw
      rw [decodeAtRest_raw]
      by_cases hlong : rest.length > maxUnpacked
      · simp [hlong]
      · simp [hlong]
    · rename_i found hnempty hnraw hfound
      cases hfound
      have hnot : ¬ ∃ rest, packed = 0 :: rest ∧ maxUnpacked < rest.length := by
        rintro ⟨rest, rfl, -⟩
        exact hnraw rest rfl
      refine iff_of_true ?_ hnot
      cases s.decodeAtRest zstd aead packed h with
      | error e => simp [Except.toOption]
      | ok bytes => simp [Except.toOption]

end DirStore

/-- With `verify_on_read` off, presence means readable unless the file is a raw frame whose payload
is longer than a chunk may be: `has` looks at its first byte only. -/
theorem presence_readable_iff (hash : Bytes → Hash) (zstd : Zstd) (aead : Cipher) (s : DirStore)
    (hverify : s.verifyOnRead = false) (h : Hash) :
    s.PresenceHolds hash zstd aead h ↔ ¬ s.Oversized h :=
  DirStore.presence_iff hverify h

def plainStore (files : AList fun _ : String × String => Bytes) : DirStore :=
  { verifyOnRead := false, compression := .none, encryption := none, files := files }

def abcFile : AList fun _ : String × String => Bytes :=
  (∅ : AList fun _ : String × String => Bytes).insert (DirStore.path (shortHash [97, 98, 99]))
    [0, 97, 98, 99]

theorem presence_readable_abc :
    (plainStore abcFile).PresenceHolds shortHash none
      nineCipher (shortHash [97, 98, 99]) := by
  refine (presence_readable_iff shortHash none nineCipher _ rfl _).mpr ?_
  rintro ⟨rest, hfile, hlong⟩
  have hlook : abcFile.lookup (DirStore.path (shortHash [97, 98, 99])) = some [0, 97, 98, 99] :=
    AList.lookup_insert _
  rw [show (plainStore abcFile).files = abcFile from rfl, hlook] at hfile
  cases hfile
  exact absurd hlong (by decide)

theorem put_oversized (h : Hash) {bytes : Bytes} (hlong : maxUnpacked < bytes.length) :
    ¬ ((plainStore ∅).put none nineCipher h bytes).2.PresenceHolds shortHash none nineCipher h := by
  have hput : (plainStore ∅).put none nineCipher h bytes =
      (.ok (), plainStore ((∅ : AList _).insert (DirStore.path h) (0 :: bytes))) := rfl
  rw [hput, DirStore.presence_iff rfl, not_not]
  exact ⟨bytes, AList.lookup_insert _, hlong⟩

/-- What `put` writes for one byte more than a chunk may have is there for `has` and gone for `get`.
-/
theorem oversized_put_vanishes :
    ∃ bytes : Bytes, bytes.length = maxUnpacked + 1 ∧
      ¬ ((plainStore ∅).put none nineCipher (shortHash [97, 98, 99]) bytes).2.PresenceHolds
      shortHash none nineCipher
        (shortHash [97, 98, 99]) :=
  ⟨List.replicate (maxUnpacked + 1) 0, List.length_replicate,
    put_oversized _ (by rw [List.length_replicate]; exact Nat.lt_succ_self _)⟩

namespace DirStore

section Scrub

variable (hash : Bytes → Hash) (zstd : Zstd) (aead : Cipher) (s : DirStore)
  (reads : String × String → Bool)

/-- `decode_at_rest` as `scrub` calls it: a seal that does not open under the key counts as
corruption. -/
def decodeStrict (packed : Bytes) (h : Hash) : Except ContainerError Bytes :=
  if packed.head? = some 2 then
    match s.encryption with
    | none => .error .unsupported
    | some key =>
      match openChunk aead key h packed with
      | some inner => tryUnpack zstd inner
      | none => .error .corrupt
  else tryUnpack zstd packed

/-- What `scrub` makes of the file at a chunk's path. A read that fails, on a file that is not there
too, is mapped to corruption. -/
def verdict (h : Hash) : Except ContainerError Bytes :=
  match (if reads (path h) then s.files.lookup (path h) else none) with
  | none => .error .corrupt
  | some packed => s.decodeStrict zstd aead packed h

def condemned (h : Hash) : Bool :=
  match s.verdict zstd aead reads h with
  | .ok bytes => decide (hash bytes ≠ h)
  | .error .unsupported => false
  | .error .corrupt => true

def scrubLoop : List Hash → List Hash → DirStore → List Hash × DirStore
  | [], corrupted, s => (corrupted, s)
  | h :: hs, corrupted, s =>
    if s.condemned hash zstd aead reads h then
      scrubLoop hs (corrupted ++ [h]) { s with files := s.files.erase (path h) }
    else scrubLoop hs corrupted s

def scrub : List Hash × DirStore := scrubLoop hash zstd aead reads s.hashes [] s

def Rotten (h : Hash) : Prop :=
  reads (path h) = true ∧ ∃ packed, s.files.lookup (path h) = some packed ∧
    (s.decodeStrict zstd aead packed h = .error .corrupt ∨
      ∃ bytes, s.decodeStrict zstd aead packed h = .ok bytes ∧ hash bytes ≠ h)

def AllRead : Prop := ∀ h ∈ s.hashes, reads (path h) = true ∧ (s.files.lookup (path h)).isSome

structure ScrubExact : Prop where
  reported : ∀ h, h ∈ (s.scrub hash zstd aead reads).1 ↔ s.Rotten hash zstd aead reads h
  gone : ∀ h, s.Rotten hash zstd aead reads h → (s.scrub hash zstd aead reads).2.files.lookup
    (path h) = none
  kept : ∀ file, (∀ h, s.Rotten hash zstd aead reads h → file ≠ path h) →
    (s.scrub hash zstd aead reads).2.files.lookup file = s.files.lookup file
  sound : ∀ h packed, (s.scrub hash zstd aead reads).2.files.lookup (path h) = some packed →
    reads (path h) = true → s.decodeStrict zstd aead packed h ≠ .error .unsupported →
    ∃ bytes, ((s.scrub hash zstd aead reads).2.get hash zstd aead h).1 = some bytes ∧ hash bytes = h

variable {hash zstd aead s reads}

theorem condemned_iff (h : Hash) :
    s.condemned hash zstd aead reads h = true ↔
      s.Rotten hash zstd aead reads h ∨ ¬
      (reads (path h) = true ∧ (s.files.lookup (path h)).isSome = true) := by
  unfold condemned verdict Rotten
  cases hread : reads (path h) with
  | false => simp
  | true =>
    cases hfile : s.files.lookup (path h) with
    | none => simp
    | some packed =>
      cases hdecode : s.decodeStrict zstd aead packed h with
      | ok bytes => simp [hdecode]
      | error e => cases e <;> simp [hdecode]

theorem mem_hashes {h : Hash} (hfile : (s.files.lookup (path h)).isSome = true) : h ∈ s.hashes := by
  have hkey : path h ∈ s.files.keys := AList.mem_keys.mp (AList.lookup_isSome.mp hfile)
  exact List.mem_filterMap.mpr ⟨path h, hkey, Hash.parse_toHex h⟩

/-- What stands between the store and the store part of a scrub later: some condemned files are
missing. -/
structure Purged (hash : Bytes → Hash) (zstd : Zstd) (aead : Cipher)
    (reads : String × String → Bool) (s s' : DirStore) : Prop where
  options : s'.toDirOptions = s.toDirOptions
  files : ∀ h, s'.files.lookup (path h) = s.files.lookup (path h) ∨
    s'.files.lookup (path h) = none ∧ s.condemned hash zstd aead reads h = true

theorem decodeStrict_options {s' : DirStore} (h : s'.toDirOptions = s.toDirOptions) :
    s'.decodeStrict zstd aead = s.decodeStrict zstd aead := by
  funext packed hash
  rw [decodeStrict, decodeStrict, h]

theorem Purged.condemned {s' : DirStore} (hp : Purged hash zstd aead reads s s') (h : Hash) :
    s'.condemned hash zstd aead reads h = s.condemned hash zstd aead reads h := by
  rcases hp.files h with hsame | ⟨hnone, hbad⟩
  · unfold DirStore.condemned verdict
    rw [hsame, decodeStrict_options hp.options]
  · rw [hbad, condemned_iff, hnone]
    simp

theorem Purged.erase {s' : DirStore} (hp : Purged hash zstd aead reads s s') {h : Hash}
    (hbad : s.condemned hash zstd aead reads h = true) :
    Purged hash zstd aead reads s { s' with files := s'.files.erase (path h) } := by
  refine ⟨hp.options, fun k => ?_⟩
  by_cases hk : path k = path h
  · right
    rw [path_inj hk]
    exact ⟨AList.lookup_erase _ _, hbad⟩
  · rw [AList.lookup_erase_ne hk]
    exact hp.files k

/-- The loop reports the condemned of its list and removes their files, no others. -/
theorem scrubLoop_spec (hs corrupted : List Hash) (s' : DirStore)
    (hp : Purged hash zstd aead reads s s') :
    (scrubLoop hash zstd aead reads hs corrupted s').1 = corrupted ++ hs.filter
    (s.condemned hash zstd aead reads) ∧
      (scrubLoop hash zstd aead reads hs corrupted s').2.toDirOptions = s.toDirOptions ∧
      (∀ h ∈ hs, s.condemned hash zstd aead reads h = true →
        (scrubLoop hash zstd aead reads hs corrupted s').2.files.lookup (path h) = none) ∧
      ∀ file, (∀ h ∈ hs, s.condemned hash zstd aead reads h = true → file ≠ path h) →
        (scrubLoop hash zstd aead reads hs corrupted s').2.files.lookup file =
        s'.files.lookup file := by
  induction hs generalizing corrupted s' with
  | nil => exact ⟨by simp [scrubLoop], hp.options, by simp, fun _ _ => rfl⟩
  | cons h hs ih =>
    rw [scrubLoop, hp.condemned]
    cases hbad : s.condemned hash zstd aead reads h with
    | false =>
      obtain ⟨hreport, hopts, hgone, hkept⟩ := ih corrupted s' hp
      simp only [Bool.false_eq_true, if_false]
      refine ⟨by rw [hreport, List.filter_cons_of_neg (by simp [hbad])], hopts, ?_, ?_⟩
      · intro k hk hkbad
        rcases List.mem_cons.mp hk with rfl | hk
        · rw [hbad] at hkbad
          cases hkbad
        · exact hgone k hk hkbad
      · exact fun file hfile => hkept file fun k hk => hfile k (List.mem_cons_of_mem _ hk)
    | true =>
      obtain ⟨hreport, hopts, hgone, hkept⟩ := ih (corrupted ++ [h]) _ (hp.erase hbad)
      simp only [if_true]
      refine ⟨by rw [hreport, List.filter_cons_of_pos hbad, List.append_assoc]; rfl, hopts, ?_, ?_⟩
      · intro k hk hkbad
        by_cases hrest : k ∈ hs
        · exact hgone k hrest hkbad
        · obtain rfl : k = h := (List.mem_cons.mp hk).resolve_right hrest
          have hlast := hkept (path k) fun j hj _ he => hrest (path_inj he ▸ hj)
          rw [hlast]
          exact AList.lookup_erase _ _
      · intro file hfile
        rw [hkept file fun k hk => hfile k (List.mem_cons_of_mem _ hk)]
        exact AList.lookup_erase_ne (hfile h List.mem_cons_self hbad)

/-- A file that a scrub leaves and that decodes is read back as the bytes of its name. -/
theorem decodeAtRest_of_strict {packed bytes : Bytes} {h : Hash}
    (hok : s.decodeStrict zstd aead packed h = .ok bytes) :
    s.decodeAtRest zstd aead packed h = .ok bytes := by
  by_cases htag : packed.head? = some 2
  · rw [decodeStrict, if_pos htag] at hok
    rw [decodeAtRest, if_pos htag]
    cases hkey : s.encryption with
    | none =>
      rw [hkey] at hok
      cases hok
    | some key =>
      rw [hkey] at hok
      dsimp only at hok ⊢
      cases hopen : openChunk aead key h packed with
      | none =>
        rw [hopen] at hok
        cases hok
      | some inner =>
        rw [hopen] at hok
        exact hok
  · rw [decodeStrict, if_neg htag] at hok
    rw [decodeAtRest, if_neg htag]
    exact hok

theorem scrub_sound {h : Hash} {packed : Bytes}
    (hleft : (s.scrub hash zstd aead reads).2.files.lookup (path h) = some packed)
    (hread : reads (path h) = true)
    (hknown : s.decodeStrict zstd aead packed h ≠ .error .unsupported) :
    ∃ bytes, ((s.scrub hash zstd aead reads).2.get hash zstd aead h).1 = some bytes ∧
      hash bytes = h := by
  obtain ⟨-, hopts, hgone, hkept⟩ :=
    scrubLoop_spec s.hashes [] s (⟨rfl, fun _ => .inl rfl⟩ : Purged hash zstd aead reads s s)
  have hbad : ¬ (h ∈ s.hashes ∧ s.condemned hash zstd aead reads h = true) := by
    rintro ⟨hmem, hbad⟩
    rw [scrub, hgone h hmem hbad] at hleft
    cases hleft
  have hfile : s.files.lookup (path h) = some packed := by
    rw [scrub, hkept (path h) fun k hk hkbad he => hbad (path_inj he ▸ ⟨hk, hkbad⟩)] at hleft
    exact hleft
  have hmem : h ∈ s.hashes := mem_hashes (by rw [hfile]; rfl)
  have hgood : s.condemned hash zstd aead reads h ≠ true := fun hc => hbad ⟨hmem, hc⟩
  obtain ⟨bytes, hdecode, hbytes⟩ : ∃ bytes, s.decodeStrict zstd aead packed h = .ok bytes ∧
      hash bytes = h := by
    unfold condemned verdict at hgood
    rw [if_pos hread, hfile] at hgood
    simp only at hgood
    cases hdecode : s.decodeStrict zstd aead packed h with
    | error e =>
      cases e with
      | unsupported => exact absurd hdecode hknown
      | corrupt => simp [hdecode] at hgood
    | ok bytes =>
      rw [hdecode] at hgood
      exact ⟨bytes, rfl, by simpa using hgood⟩
  have hafter : (s.scrub hash zstd aead reads).2.decodeAtRest zstd aead packed h = .ok bytes := by
    apply decodeAtRest_of_strict
    rw [decodeStrict_options (by exact hopts)]
    exact hdecode
  refine ⟨bytes, ?_, hbytes⟩
  rw [get, hleft]
  simp only [hafter]
  rw [if_neg fun hne => hne.2 hbytes]

/-- Scrubbing removes exactly what is corrupt when every listed chunk has its file where it belongs
and each of these files can be read; a chunk that could not be read is removed with the corrupt
ones. -/
theorem scrub_exact_iff (hash : Bytes → Hash) (zstd : Zstd) (aead : Cipher) (s : DirStore)
    (reads : String × String → Bool) : s.ScrubExact hash zstd aead reads ↔ s.AllRead reads := by
  obtain ⟨hreport, hopts, hgone, hkept⟩ :=
    scrubLoop_spec s.hashes [] s (⟨rfl, fun _ => .inl rfl⟩ : Purged hash zstd aead reads s s)
  simp only [List.nil_append] at hreport
  constructor
  · intro hexact h hmem
    by_contra hunread
    have hin : h ∈ (s.scrub hash zstd aead reads).1 := by
      rw [scrub, hreport]
      exact List.mem_filter.mpr ⟨hmem, (condemned_iff h).mpr (.inr hunread)⟩
    obtain ⟨hread, packed, hfile, -⟩ := (hexact.reported h).mp hin
    exact hunread ⟨hread, by rw [hfile]; rfl⟩
  · intro hall
    have hrotten : ∀ h, h ∈ s.hashes ∧ s.condemned hash zstd aead reads h = true ↔
        s.Rotten hash zstd aead reads h := by
      intro h
      constructor
      · rintro ⟨hmem, hbad⟩
        exact ((condemned_iff h).mp hbad).resolve_right fun hno => hno (hall h hmem)
      · intro hrot
        obtain ⟨-, packed, hfile, -⟩ := id hrot
        exact ⟨mem_hashes (by rw [hfile]; rfl), (condemned_iff h).mpr (.inl hrot)⟩
    refine ⟨fun h => ?_, fun h hrot => ?_, fun file hfile => ?_, fun h packed => scrub_sound⟩
    · rw [scrub, hreport, List.mem_filter, hrotten]
    · obtain ⟨hmem, hbad⟩ := (hrotten h).mpr hrot
      exact hgone h hmem hbad
    · exact hkept file fun h hmem hbad => hfile h ((hrotten h).mp ⟨hmem, hbad⟩)

/-- An intact chunk whose file cannot be read at this moment is deleted and reported. -/
theorem unreadable_chunk_deleted :
    ¬ (plainStore abcFile).ScrubExact shortHash none nineCipher
      fun _ => false := by
  intro hexact
  have hin : shortHash [97, 98, 99] ∈ ((plainStore abcFile).scrub
      shortHash none nineCipher fun _ => false).1 := by decide +kernel
  exact absurd ((hexact.reported _).mp hin).1 (by simp)

end Scrub

end DirStore

end Zblob
