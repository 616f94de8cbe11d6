import Zblob.DirStore
import Zblob.Verify

/-!
A directory store is a map from addresses to bytes, however it is opened; without the right
key it is an unreadable one.
-/

set_option autoImplicit false

namespace Zblob

theorem hexVal_hexDigit {n : Nat} (h : n < 16) : hexVal (hexDigit n) = some n := by
  have hall : ∀ n : Fin 16, hexVal (hexDigit n) = some n.val := by decide
  exact hall ⟨n, h⟩

theorem hexBytes_digits (bytes : Bytes) :
    hexBytes (bytes.flatMap fun b => [hexDigit (b.toNat / 16), hexDigit (b.toNat % 16)]) =
      some bytes := by
  induction bytes with
  | nil => rfl
  | cons b bytes ih =>
    have hlt := b.toNat_lt
    have hb : UInt8.ofNat (b.toNat / 16 * 16 + b.toNat % 16) = b := by
      rw [Nat.div_add_mod']
      exact UInt8.ofNat_toNat
    simp only [List.flatMap_cons, List.cons_append, List.nil_append, hexBytes, bind, Option.bind,
      hexVal_hexDigit (show b.toNat / 16 < 16 by omega),
      hexVal_hexDigit (show b.toNat % 16 < 16 by omega), ih, hb]

theorem Hash.parse_toHex (h : Hash) : Hash.parse h.toHex = some h := by
  rw [Hash.parse, Hash.toHex, String.toList_ofList, hexBytes_digits]
  simp [h.len]

theorem DirStore.path_inj {a b : Hash} (h : DirStore.path a = DirStore.path b) : a = b := by
  have hhex : a.toHex = b.toHex := congrArg Prod.snd h
  have hparse := Hash.parse_toHex a
  rw [hhex, Hash.parse_toHex] at hparse
  exact (Option.some.inj hparse).symm

section AtRest

variable (zstd : Zstd) (aead : Cipher)

def AtRest (enc : Option StoreKey) (h : Hash) (packed bytes : Bytes) : Prop :=
  match enc with
  | none => tryUnpack zstd packed = .ok bytes
  | some key => ∃ inner, sealChunk aead key h inner = some packed ∧ tryUnpack zstd inner = .ok bytes

variable {zstd aead} {s : DirStore} {h : Hash} {packed bytes : Bytes}

theorem tryUnpack_tag (hun : tryUnpack zstd packed = .ok bytes) :
    ∃ tag rest, packed = tag :: rest ∧ tag ≠ 2 := by
  cases packed with
  | nil => simp [tryUnpack] at hun
  | cons tag rest =>
    refine ⟨tag, rest, rfl, ?_⟩
    rintro rfl
    simp [tryUnpack] at hun

/-- A sealed chunk opens with its key and with no other. -/
theorem openChunk_seal (laws : aead.Laws) {key : StoreKey} {inner : Bytes}
    (hseal : sealChunk aead key h inner = some packed) :
    packed.head? = some 2 ∧ openChunk aead key h packed = some inner ∧
      ∀ other, other ≠ key → openChunk aead other h packed = none := by
  obtain ⟨ciphertext, henc, rfl⟩ := Option.map_eq_some_iff.mp hseal
  have hlen := laws.nonceLen key h inner
  have htake : (aead.nonce key h inner ++ ciphertext).take 24 = aead.nonce key h inner :=
    List.take_left' hlen
  have hdrop : (aead.nonce key h inner ++ ciphertext).drop 24 = ciphertext := List.drop_left' hlen
  have hsize : ¬(aead.nonce key h inner ++ ciphertext).length < 24 := by simp [hlen]
  refine ⟨rfl, ?_, fun other hother => ?_⟩
  · rw [openChunk, if_neg hsize, htake, hdrop]
    exact laws.opens key _ h inner ciphertext henc
  · rw [openChunk, if_neg hsize, htake, hdrop]
    exact laws.rejects key other _ h inner ciphertext henc hother

theorem AtRest.decodes (laws : aead.Laws) (hrest : AtRest zstd aead s.encryption h packed bytes) :
    s.decodeAtRest zstd aead packed h = .ok bytes := by
  cases henc : s.encryption with
  | none =>
    rw [henc] at hrest
    obtain ⟨tag, rest, rfl, htag⟩ := tryUnpack_tag hrest
    rw [DirStore.decodeAtRest, if_neg (by simpa using htag)]
    exact hrest
  | some key =>
    rw [henc] at hrest
    obtain ⟨inner, hseal, hun⟩ := hrest
    obtain ⟨htag, hopen, -⟩ := openChunk_seal laws hseal
    rw [DirStore.decodeAtRest, if_pos htag, henc]
    simp only [hopen]
    exact hun

theorem AtRest.locked (laws : aead.Laws) {key : StoreKey}
    (hrest : AtRest zstd aead (some key) h packed bytes)
    (hkey : s.encryption ≠ some key) :
    packed.head? = some 2 ∧ s.decodeAtRest zstd aead packed h = .error .unsupported := by
  obtain ⟨inner, hseal, -⟩ := hrest
  obtain ⟨htag, -, hother⟩ := openChunk_seal laws hseal
  refine ⟨htag, ?_⟩
  rw [DirStore.decodeAtRest, if_pos htag]
  cases henc : s.encryption with
  | none => rfl
  | some other =>
    have hne : other ≠ key := by
      rintro rfl
      exact hkey henc
    simp only [hother other hne]

end AtRest

def Compress.Offers (compress : Compress) (compression : ChunkCompression) : Prop :=
  ∀ bytes, ∃ packed, pack compress bytes compression = .ok packed

def Storable (hash : Bytes → Hash) (p : Hash × Bytes) : Prop :=
  hash p.2 = p.1 ∧ p.2.length ≤ maxUnpacked

/-- Puts are of storable chunks, and the store is always opened with the same key. -/
def StoreOp.Admitted (hash : Bytes → Hash) (compress : Compress) (enc : Option StoreKey) :
    StoreOp → Prop
  | .reopen options => options.encryption = enc ∧ compress.Offers options.compression
  | .put h bytes => Storable hash (h, bytes)
  | .putMany ps => ∀ p ∈ ps, Storable hash p
  | _ => True

section Represents

variable (hash : Bytes → Hash) (zstd : Zstd) (compress : Compress)
  (aead : Cipher) (enc : Option StoreKey)

/-- The files are those of the chunks of the map, each kept under this key. -/
structure KeptIn (files : AList fun _ : String × String => Bytes) (m : StoreMap) : Prop where
  chunks : ∀ h bytes, m.lookup h = some bytes →
    hash bytes = h ∧ ∃ packed, files.lookup (DirStore.path h) = some packed ∧
    AtRest zstd aead enc h packed bytes
  absent : ∀ h, m.lookup h = none → files.lookup (DirStore.path h) = none
  names : ∀ file ∈ files.keys, ∃ h, file = DirStore.path h

structure Represents (s : DirStore) (m : StoreMap) : Prop where
  key : s.encryption = enc
  offers : compress.Offers s.compression
  kept : KeptIn hash zstd aead enc s.files m

variable {hash zstd compress aead enc} {s : DirStore} {m : StoreMap}
  {files : AList fun _ : String × String => Bytes}

theorem KeptIn.empty : KeptIn hash zstd aead enc ∅ ∅ := by
  refine ⟨fun h bytes hm => ?_, fun _ _ => rfl, fun file hf => ?_⟩
  · cases hm
  · cases hf

theorem KeptIn.insert (hk : KeptIn hash zstd aead enc files m) {h : Hash} {packed bytes : Bytes}
    (hhash : hash bytes = h) (hrest : AtRest zstd aead enc h packed bytes) :
    KeptIn hash zstd aead enc (files.insert (DirStore.path h) packed) (m.insert h bytes) := by
  refine ⟨fun x b hx => ?_, fun x hx => ?_, fun file hf => ?_⟩
  · by_cases hxh : x = h
    · subst hxh
      rw [AList.lookup_insert] at hx
      cases hx
      exact ⟨hhash, packed, AList.lookup_insert _, hrest⟩
    · rw [AList.lookup_insert_ne hxh] at hx
      rw [AList.lookup_insert_ne fun he => hxh (DirStore.path_inj he)]
      exact hk.chunks x b hx
  · have hxh : x ≠ h := by
      rintro rfl
      rw [AList.lookup_insert] at hx
      cases hx
    rw [AList.lookup_insert_ne hxh] at hx
    rw [AList.lookup_insert_ne fun he => hxh (DirStore.path_inj he)]
    exact hk.absent x hx
  · rcases (AList.mem_insert _).mp (AList.mem_keys.mpr hf) with rfl | hf
    · exact ⟨h, rfl⟩
    · exact hk.names file hf

theorem KeptIn.erase (hk : KeptIn hash zstd aead enc files m) (h : Hash) :
    KeptIn hash zstd aead enc (files.erase (DirStore.path h)) (m.erase h) := by
  refine ⟨fun x b hx => ?_, fun x hx => ?_, fun file hf => ?_⟩
  · have hxh : x ≠ h := by
      rintro rfl
      rw [AList.lookup_erase] at hx
      cases hx
    rw [AList.lookup_erase_ne hxh] at hx
    rw [AList.lookup_erase_ne fun he => hxh (DirStore.path_inj he)]
    exact hk.chunks x b hx
  · by_cases hxh : x = h
    · subst hxh
      exact AList.lookup_erase _ _
    · rw [AList.lookup_erase_ne hxh] at hx
      rw [AList.lookup_erase_ne fun he => hxh (DirStore.path_inj he)]
      exact hk.absent x hx
  · exact hk.names file (AList.mem_erase.mp (AList.mem_keys.mpr hf)).2

theorem KeptIn.listing (hk : KeptIn hash zstd aead enc s.files m) : s.hashes.Perm m.keys := by
  have hnames : s.files.keys = s.hashes.map DirStore.path := by
    have hall := hk.names
    unfold DirStore.hashes
    generalize s.files.keys = files at hall
    induction files with
    | nil => rfl
    | cons file files ih =>
      obtain ⟨h, rfl⟩ := hall file (by simp)
      have hparse : Hash.parse (DirStore.path h).2 = some h := Hash.parse_toHex h
      rw [List.filterMap_cons]
      simp only [hparse, List.map_cons]
      rw [← ih fun f hf => hall f (by simp [hf])]
  have hnodup : s.hashes.Nodup := by
    have := s.files.keys_nodup
    rw [hnames] at this
    exact this.of_map _
  rw [List.perm_ext_iff_of_nodup hnodup m.keys_nodup]
  intro h
  have hmem : h ∈ s.hashes ↔ DirStore.path h ∈ s.files.keys := by
    rw [hnames, List.mem_map]
    constructor
    · exact fun hh => ⟨h, hh, rfl⟩
    · rintro ⟨x, hx, he⟩
      exact DirStore.path_inj he ▸ hx
  rw [hmem, ← AList.mem_keys, ← AList.mem_keys, ← AList.lookup_isSome, ← AList.lookup_isSome]
  cases hm : m.lookup h with
  | none => simp [hk.absent h hm]
  | some bytes =>
    obtain ⟨-, packed, hp, -⟩ := hk.chunks h bytes hm
    simp [hp]

theorem Represents.has (hr : Represents hash zstd compress aead enc s m)
    (laws : aead.Laws) (h : Hash) :
    s.has zstd aead h = (m.lookup h).isSome := by
  unfold DirStore.has
  cases hm : m.lookup h with
  | none => rw [hr.kept.absent h hm]; rfl
  | some bytes =>
    obtain ⟨-, packed, hp, hrest⟩ := hr.kept.chunks h bytes hm
    rw [← hr.key] at hrest
    have hdecodes := hrest.decodes laws
    rw [hp]
    split
    · rename_i hnone
      cases hnone
    · rename_i hempty
      cases hempty
      simp [DirStore.decodeAtRest, tryUnpack] at hdecodes
    · rfl
    · rename_i found hfound
      cases hfound
      rw [hdecodes]
      rfl

theorem Represents.get (hr : Represents hash zstd compress aead enc s m)
    (laws : aead.Laws) (h : Hash) :
    s.get hash zstd aead h = (m.lookup h, s) := by
  unfold DirStore.get
  cases hm : m.lookup h with
  | none => rw [hr.kept.absent h hm]
  | some bytes =>
    obtain ⟨hhash, packed, hp, hrest⟩ := hr.kept.chunks h bytes hm
    rw [← hr.key] at hrest
    rw [hp]
    simp only [hrest.decodes laws]
    rw [if_neg fun hbad => hbad.2 hhash]

theorem Represents.getMany (hr : Represents hash zstd compress aead enc s m)
    (laws : aead.Laws) (hs : List Hash) :
    DirStore.getMany hash zstd aead hs s = (hs.map m.lookup, s) := by
  induction hs with
  | nil => rfl
  | cons h hs ih => simp [DirStore.getMany, hr.get laws, ih]

theorem Represents.put (hr : Represents hash zstd compress aead enc s m) (laws : aead.Laws)
    (hundone : compress.Undone zstd) {h : Hash} {bytes : Bytes}
    (hstorable : Storable hash (h, bytes)) :
    (s.put compress aead h bytes).1 = .ok () ∧
      Represents hash zstd compress aead enc (s.put compress aead h bytes).2
      (m.insert h bytes) := by
  obtain ⟨hhash, hmax⟩ := hstorable
  obtain ⟨packed, hpack⟩ := hr.offers bytes
  have hun := tryUnpack_pack hundone hmax hpack
  have hkey := hr.key
  unfold DirStore.put
  rw [hpack]
  cases henc : s.encryption with
  | none =>
    rw [henc] at hkey
    subst hkey
    exact ⟨rfl, henc, hr.offers, hr.kept.insert hhash hun⟩
  | some key =>
    rw [henc] at hkey
    subst hkey
    obtain ⟨ciphertext, hct⟩ :=
      Option.isSome_iff_exists.mp (laws.seals key (aead.nonce key h packed) h packed)
    have hseal : sealChunk aead key h packed =
        some (2 :: (aead.nonce key h packed ++ ciphertext)) := by
      rw [sealChunk, hct]
      rfl
    simp only [hseal]
    exact ⟨trivial, henc, hr.offers, hr.kept.insert hhash ⟨packed, hseal, hun⟩⟩

theorem Represents.putMany (hr : Represents hash zstd compress aead enc s m) (laws : aead.Laws)
    (hundone : compress.Undone zstd) {ps : List (Hash × Bytes)} (hall : ∀ p ∈ ps, Storable hash p) :
    (DirStore.putMany compress aead ps s).1 = .ok () ∧
      Represents hash zstd compress aead enc (DirStore.putMany compress aead ps s).2
        (ps.foldl (fun m p => m.insert p.1 p.2) m) := by
  induction ps generalizing s m with
  | nil => exact ⟨rfl, hr⟩
  | cons p ps ih =>
    obtain ⟨hok, hnext⟩ := hr.put laws hundone (hall p (by simp))
    have hstep : DirStore.putMany compress aead (p :: ps) s =
        DirStore.putMany compress aead ps (s.put compress aead p.1 p.2).2 := by
      rw [DirStore.putMany]
      cases hput : s.put compress aead p.1 p.2 with
      | mk result next =>
        rw [hput] at hok
        simp only at hok
        subst hok
        rfl
    rw [hstep]
    exact ih hnext fun q hq => hall q (by simp [hq])

/-- Every operation answers as on the map and leaves the store for the map after it. -/
theorem Represents.step (laws : aead.Laws) (hundone : compress.Undone zstd) (op : StoreOp)
    (hop : op.Admitted hash compress enc) (hr : Represents hash zstd compress aead enc s m) :
    StoreAnswer.Same (DirStore.step hash zstd compress aead op s).1 (StoreMap.step op m).1 ∧
      Represents hash zstd compress aead enc (DirStore.step hash zstd compress aead op s).2
        (StoreMap.step op m).2 := by
  cases op with
  | reopen options => exact ⟨.same _, hop.1, hop.2, hr.kept⟩
  | put h bytes =>
    obtain ⟨hok, hnext⟩ := hr.put laws hundone hop
    refine ⟨?_, hnext⟩
    simp only [DirStore.step, StoreMap.step, hok]
    exact .same _
  | putMany ps =>
    obtain ⟨hok, hnext⟩ := hr.putMany laws hundone hop
    refine ⟨?_, hnext⟩
    simp only [DirStore.step, StoreMap.step, hok]
    exact .same _
  | get h =>
    simp only [DirStore.step, StoreMap.step, hr.get laws]
    exact ⟨.same _, hr⟩
  | getMany hs =>
    simp only [DirStore.step, StoreMap.step, hr.getMany laws]
    exact ⟨.same _, hr⟩
  | has h =>
    simp only [DirStore.step, StoreMap.step, hr.has laws]
    exact ⟨.same _, hr⟩
  | hasMany hs =>
    have hmany : s.hasMany zstd aead hs = hs.map fun h => (m.lookup h).isSome :=
      List.map_congr_left fun h _ => hr.has laws h
    simp only [DirStore.step, StoreMap.step, hmany]
    exact ⟨.same _, hr⟩
  | remove h =>
    have hwas : (s.files.lookup (DirStore.path h)).isSome = (m.lookup h).isSome := by
      cases hm : m.lookup h with
      | none => rw [hr.kept.absent h hm]
      | some bytes =>
        obtain ⟨-, packed, hp, -⟩ := hr.kept.chunks h bytes hm
        rw [hp]
        rfl
    simp only [DirStore.step, StoreMap.step, DirStore.remove, hwas]
    exact ⟨.same _, hr.key, hr.offers, hr.kept.erase h⟩
  | hashes => exact ⟨.listed hr.kept.listing, hr⟩

end Represents

def StoreOp.ReadsWithout (key : StoreKey) : StoreOp → Prop
  | .reopen options => options.encryption ≠ some key
  | .get _ | .getMany _ | .has _ | .hasMany _ | .hashes => True
  | _ => False

def StoreMap.locked (op : StoreOp) (m : StoreMap) : StoreAnswer × StoreMap :=
  match op with
  | .get _ => (.got [none], m)
  | .getMany hs => (.got (hs.map fun _ => none), m)
  | .has _ => (.present [false], m)
  | .hasMany hs => (.present (hs.map fun _ => false), m)
  | op => StoreMap.step op m

section Locked

variable {hash : Bytes → Hash} {zstd : Zstd} {compress : Compress} {aead : Cipher} {key : StoreKey}
  {files : AList fun _ : String × String => Bytes} {s : DirStore} {m : StoreMap}

/-- A store that is opened without the key, over files that are sealed under it. -/
structure LockedOut (hash : Bytes → Hash) (zstd : Zstd) (aead : Cipher) (key : StoreKey)
    (files : AList fun _ : String × String => Bytes) (s : DirStore) (m : StoreMap) : Prop where
  other : s.encryption ≠ some key
  files : s.files = files
  kept : KeptIn hash zstd aead (some key) s.files m

theorem LockedOut.has (hl : LockedOut hash zstd aead key files s m) (laws : aead.Laws) (h : Hash) :
    s.has zstd aead h = false := by
  unfold DirStore.has
  cases hm : m.lookup h with
  | none => rw [hl.kept.absent h hm]
  | some bytes =>
    obtain ⟨-, packed, hp, hrest⟩ := hl.kept.chunks h bytes hm
    obtain ⟨htag, hdecode⟩ := hrest.locked laws hl.other
    rw [hp]
    split
    · rfl
    · rfl
    · rename_i hraw
      cases hraw
      cases htag
    · rename_i found hfound
      cases hfound
      rw [hdecode]
      rfl

theorem LockedOut.get (hl : LockedOut hash zstd aead key files s m) (laws : aead.Laws) (h : Hash) :
    s.get hash zstd aead h = (none, s) := by
  unfold DirStore.get
  cases hm : m.lookup h with
  | none => rw [hl.kept.absent h hm]
  | some bytes =>
    obtain ⟨-, packed, hp, hrest⟩ := hl.kept.chunks h bytes hm
    rw [hp]
    simp only [(hrest.locked laws hl.other).2]

theorem LockedOut.getMany (hl : LockedOut hash zstd aead key files s m)
    (laws : aead.Laws) (hs : List Hash) :
    DirStore.getMany hash zstd aead hs s = (hs.map fun _ => none, s) := by
  induction hs with
  | nil => rfl
  | cons h hs ih => simp [DirStore.getMany, hl.get laws, ih]

theorem LockedOut.step (laws : aead.Laws) (op : StoreOp) (hop : op.ReadsWithout key)
    (hl : LockedOut hash zstd aead key files s m) :
    StoreAnswer.Same (DirStore.step hash zstd compress aead op s).1 (StoreMap.locked op m).1 ∧
      LockedOut hash zstd aead key files (DirStore.step hash zstd compress aead op s).2
      (StoreMap.locked op m).2 := by
  cases op with
  | reopen options => exact ⟨.same _, hop, hl.files, hl.kept⟩
  | put h bytes => cases hop
  | putMany ps => cases hop
  | remove h => cases hop
  | get h =>
    simp only [DirStore.step, StoreMap.locked, hl.get laws]
    exact ⟨.same _, hl⟩
  | getMany hs =>
    simp only [DirStore.step, StoreMap.locked, hl.getMany laws]
    exact ⟨.same _, hl⟩
  | has h =>
    simp only [DirStore.step, StoreMap.locked, hl.has laws]
    exact ⟨.same _, hl⟩
  | hasMany hs =>
    have hmany : s.hasMany zstd aead hs = hs.map fun _ => false :=
      List.map_congr_left fun h _ => hl.has laws h
    simp only [DirStore.step, StoreMap.locked, hmany]
    exact ⟨.same _, hl⟩
  | hashes => exact ⟨.listed hl.kept.listing, hl⟩

end Locked

/-- Opened again and again with one key or with none, a directory store answers as a map
does. Opened without the key of its chunks it knows their addresses only, no read changes a
file, and the right key brings the map back. -/
theorem dir_store_refines_map (hash : Bytes → Hash) (zstd : Zstd)
    (compress : Compress) (aead : Cipher)
    (laws : aead.Laws) (hundone : compress.Undone zstd) (options : DirOptions)
    (hoffers : compress.Offers options.compression) (ops : List StoreOp)
    (hops : ∀ op ∈ ops, op.Admitted hash compress options.encryption) :
    let impl := Runs.answers (DirStore.step hash zstd compress aead) ops { options with files := ∅ }
    let spec := Runs.answers StoreMap.step ops ∅
    List.Forall₂ StoreAnswer.Same impl.1 spec.1 ∧
      ∀ key, options.encryption = some key → ∀ other : DirOptions, other.encryption ≠ some key →
        ∀ reads : List StoreOp, (∀ op ∈ reads, op.ReadsWithout key) →
          let without := Runs.answers (DirStore.step hash zstd compress aead) reads
            { other with files := impl.2.files }
          List.Forall₂ StoreAnswer.Same without.1 (Runs.answers StoreMap.locked reads spec.2).1 ∧
            without.2.files = impl.2.files ∧
            ∀ right : DirOptions, right.encryption = some key → compress.Offers right.compression →
              ∀ more : List StoreOp, (∀ op ∈ more, op.Admitted hash compress (some key)) →
                List.Forall₂ StoreAnswer.Same
                  (Runs.answers (DirStore.step hash zstd compress aead)
                    more { right with files := without.2.files }).1
                  (Runs.answers StoreMap.step more spec.2).1 := by
  intro impl spec
  have hstart : Represents hash zstd compress aead options.encryption
      { options with files := ∅ } ∅ :=
    ⟨rfl, hoffers, KeptIn.empty⟩
  obtain ⟨hsame, hend⟩ := Runs.answers_simulation
    (fun op s m hop hr => Represents.step laws hundone op hop hr) hops hstart
  refine ⟨hsame, ?_⟩
  intro key hkey other hother reads hreads without
  have hkept : KeptIn hash zstd aead (some key) impl.2.files spec.2 := hkey ▸ hend.kept
  have hlocked : LockedOut hash zstd aead key impl.2.files
      { other with files := impl.2.files } spec.2 :=
    ⟨hother, rfl, hkept⟩
  obtain ⟨hblind, hout⟩ := Runs.answers_simulation
    (fun op s m hop hl => LockedOut.step laws op hop hl) hreads hlocked
  refine ⟨hblind, hout.files, fun right hright hoffersRight more hmore => ?_⟩
  have hback : Represents hash zstd compress aead (some key) { right with files := without.2.files }
    spec.2 := by
    refine ⟨hright, hoffersRight, ?_⟩
    rw [show without.2.files = impl.2.files from hout.files]
    exact hkept
  exact (Runs.answers_simulation (fun op s m hop hr => Represents.step laws hundone op hop hr)
    hmore hback).1

def nineKey : StoreKey := ⟨List.replicate 32 9, by decide⟩

def nineNonce : Bytes :=
  [0xe8, 0xd3, 0x9f, 0x1a, 0x16, 0x3c, 0x44, 0xd8, 0xc5, 0x08, 0x96, 0xfa, 0x81, 0x0c, 0xc9, 0x0a,
    0xa3, 0xca, 0xd4, 0x62, 0xef, 0x59, 0x9a, 0x39]

def nineCiphertext : Bytes :=
  [0xa4, 0x48, 0xd9, 0xb7, 0x28, 0xd5, 0x41, 0xe5, 0x94, 0x2d, 0x9e, 0x04, 0x4a, 0x89, 0x21, 0xc4,
    0x33, 0xce, 0x5e, 0x7f]

def nineCipher : Cipher where
  nonce key h container :=
    if key = nineKey ∧ h = shortHash [97, 98, 99] ∧ container = [0, 97, 98, 99] then nineNonce
    else List.replicate 24 0
  encrypt key nonce h msg :=
    if key = nineKey ∧ nonce = nineNonce ∧ h = shortHash [97, 98, 99] ∧ msg = [0, 97, 98, 99] then
      some nineCiphertext
    else some (0 :: (key.bytes ++ msg))
  decrypt key nonce h ciphertext :=
    if ciphertext = nineCiphertext then
      if key = nineKey ∧ nonce = nineNonce ∧ h = shortHash [97, 98, 99] then
        some [0, 97, 98, 99] else none
    else if ciphertext.head? = some 0 ∧ (ciphertext.drop 1).take 32 = key.bytes then
      some ((ciphertext.drop 1).drop 32)
    else none

theorem nineCipher_laws : nineCipher.Laws := by
  have hplain : ∀ (key : StoreKey) (msg : Bytes), 0 :: (key.bytes ++ msg) ≠ nineCiphertext := by
    intro key msg h
    cases h
  refine ⟨fun key h container => ?_, fun key nonce h msg => ?_, fun key nonce h msg out henc => ?_,
    fun key other nonce h msg out henc hne => ?_⟩
  · simp only [nineCipher]
    split <;> decide
  · simp only [nineCipher]
    split <;> rfl
  · simp only [nineCipher] at henc ⊢
    split at henc
    · rename_i hknown
      cases henc
      rw [if_pos rfl, if_pos ⟨hknown.1, hknown.2.1, hknown.2.2.1⟩, hknown.2.2.2]
    · cases henc
      rw [if_neg (hplain key msg)]
      simp [List.take_left' key.len, List.drop_left' key.len]
  · simp only [nineCipher] at henc ⊢
    split at henc
    · rename_i hknown
      cases henc
      rw [if_pos rfl, if_neg fun hk => hne (hk.1.trans hknown.1.symm)]
    · cases henc
      have hother : key.bytes ≠ other.bytes := by
        intro hb
        cases key
        cases other
        exact hne (by simp_all)
      rw [if_neg (hplain key msg), if_neg]
      simp [List.take_left' key.len, hother]

/-- Without its key the chunk is not there; with it, it is. -/
theorem dir_store_refines_map_nine :
    let step := DirStore.step shortHash none none nineCipher
    let sealed := Runs.answers step [.put (shortHash [97, 98, 99]) [97, 98, 99]]
      { verifyOnRead := true, compression := .none, encryption := some nineKey, files := ∅ }
    sealed.2.files.lookup (DirStore.path (shortHash [97, 98, 99])) =
      some (2 :: (nineNonce ++ nineCiphertext)) ∧
      List.Forall₂ StoreAnswer.Same
        (Runs.answers step [.get (shortHash [97, 98, 99]), .has (shortHash [97, 98, 99])]
          { verifyOnRead := true, compression := .none, encryption := none,
            files := sealed.2.files }).1
        [.got [none], .present [false]] := by
  intro step sealed
  have hrefines :=
    dir_store_refines_map shortHash none none nineCipher nineCipher_laws (fun c hc => by cases hc)
    ⟨true, .none, some nineKey⟩ (fun bytes => ⟨_, rfl⟩) [.put (shortHash [97, 98, 99]) [97, 98, 99]]
    (fun op hop => by
      rw [List.mem_singleton.mp hop]
      exact ⟨rfl, by decide⟩)
  refine ⟨by decide +kernel, ?_⟩
  exact (hrefines.2 nineKey rfl ⟨true, .none, none⟩ (by decide) [.get (shortHash [97, 98, 99]),
    .has (shortHash [97, 98, 99])] (fun op hop => by
      rcases List.mem_cons.mp hop with rfl | hop
      · trivial
      · rw [List.mem_singleton.mp hop]
        trivial)).1

end Zblob
