import NnEngine.KeyedCache
import NnEngine.Schedule.Exec

/-!
# Initializers on the device

How the sessions of `session/hybrid.rs` and `session/cuda.rs` put the initializers of their graphs into
device buffers, with a `PersistentBuffers` that several sessions share.  A file does not change while
sessions are built, and the device has room.
-/

namespace NnEngine

open KeyedCache

inductive SessionError
  | modelLoadError
  | otherError (msg : String)
  deriving DecidableEq, Repr

abbrev Bytes := List UInt8

inductive InitializerSource
  | inline (tensor : Bytes)
  | external (file : Bytes) (offset length : Nat)
  deriving DecidableEq

namespace InitializerSource

/-- `byte_len`. -/
def byteLen : InitializerSource → Nat
  | inline tensor => tensor.length
  | external _ _ length => length

/-- The bytes of the initializer; `read_exact_at` fails past the end of the file, unless there is nothing to
read. -/
def load : InitializerSource → Except SessionError Bytes
  | inline tensor => .ok tensor
  | external file offset length =>
      if length = 0 ∨ offset + length ≤ file.length then .ok ((file.drop offset).take length)
      else .error .modelLoadError

end InitializerSource

/-- The contents of a device buffer, whose length is its size. -/
abbrev DeviceBuffer := Bytes

/-- `DeviceBuffer::alloc_zeroed`. -/
def DeviceBuffer.allocZeroed (n : Nat) : DeviceBuffer := List.replicate n 0

/-- `host_to_device`: the bytes at the start of the buffer are replaced. -/
def DeviceBuffer.hostToDevice (buf : DeviceBuffer) (src : Bytes) : DeviceBuffer := src ++ buf.drop src.length

/-- The closure `upload`, with `send_initializer_to_device`. -/
def upload (src : InitializerSource) : Except SessionError DeviceBuffer :=
  let buf := DeviceBuffer.allocZeroed (max src.byteLen 1)
  if src.byteLen = 0 then .ok buf else src.load.map buf.hostToDevice

/-- `Target`; `cuda` with the `is_disabled` of its prefetch policy. -/
inductive Target
  | cpu
  | cuda (disabled : Bool)
  | hybrid
  deriving DecidableEq, Repr

/-- What the construction of a session reads of its schedule and its graph. -/
structure SessionBuild where
  target : Target
  initializers : List ValueId
  executionPlan : Option ExecutionPlan
  name : ValueId → String
  source : ValueId → InitializerSource

/-- Where an initializer is for the steps of the device. -/
inductive InitializerMemory
  | device (buf : DeviceBuffer)
  | hostWeight (bytes : Bytes)
  deriving DecidableEq

namespace SessionBuild

/-- `plan.steps`, none without a plan. -/
def steps (s : SessionBuild) : List Step :=
  match s.executionPlan with
  | some plan => plan.steps
  | none => []

/-- The places that `build_cuda_state` looks at in a step. -/
def gpuPlaces : Step → List AllocPlace
  | .kernel k => if k.context.device = .CUDA then k.bindings.map ValueBinding.place else []
  | .transfer t => [t.src.place, t.dst.place]
  | .syncWait _ => []

/-- Membership in `gpu_initializer_indices`. -/
def isGpuInitializer (s : SessionBuild) (v : ValueId) : Bool :=
  (s.steps.flatMap gpuPlaces).contains (.initializer v)

/-- A transfer that `host_resident_initializer_indices` takes for the copy of a host-resident weight. -/
def stagesWeight (v : ValueId) : Step → Bool
  | .transfer t =>
      t.context.device = .CUDA && (t.dst.place matches .chunk _) && decide (t.src.place = .initializer v)
  | _ => false

/-- Membership in `host_resident_initializer_indices`. -/
def isHostResident (s : SessionBuild) (v : ValueId) : Bool :=
  match s.target with
  | .cuda false => s.steps.any (stagesWeight v)
  | _ => false

/-- The initializers that are asked for in the cache. -/
def isCached (s : SessionBuild) (v : ValueId) : Bool :=
  match s.target with
  | .hybrid => s.isGpuInitializer v
  | .cuda _ => !s.isHostResident v
  | .cpu => false

/-- The body of the loops over the initializers in `build_cuda_state` and `SessionCUDA::new`. -/
def buildInitializer (s : SessionBuild) (cache : String → Option DeviceBuffer) (v : ValueId) :
    Except SessionError (InitializerMemory × (String → Option DeviceBuffer)) :=
  if s.isCached v then
    (getOrInsertWith cache (s.name v) (upload (s.source v))).map fun x => (.device x.1, x.2)
  else if s.isHostResident v then (s.source v).load.map fun bytes => (.hostWeight bytes, cache)
  else .ok (.device (DeviceBuffer.allocZeroed 1), cache)

/-- The loop over the initializers. -/
def buildInitializers (s : SessionBuild) : List ValueId → (String → Option DeviceBuffer) →
    Except SessionError (List (ValueId × InitializerMemory) × (String → Option DeviceBuffer))
  | [], cache => .ok ([], cache)
  | v :: vs, cache => do
      let (mem, cache) ← s.buildInitializer cache v
      let (mems, cache) ← buildInitializers s vs cache
      pure ((v, mem) :: mems, cache)

/-- `needs_cuda` of `SessionHybrid::new`. -/
def needsCuda (s : SessionBuild) : Bool :=
  s.steps.any fun step =>
    match step with
    | .kernel k => k.context.device == .CUDA
    | .transfer _ => true
    | .syncWait _ => false

/-- A session on a cache, with the memory of its initializers on the device.  A hybrid session has every
initializer in host memory as well. -/
def build (s : SessionBuild) (cache : String → Option DeviceBuffer) :
    Except SessionError (List (ValueId × InitializerMemory) × (String → Option DeviceBuffer)) :=
  match s.target with
  | .cpu => .error (.otherError "PersistentBuffers is not supported on CPU target")
  | .cuda _ => s.buildInitializers s.initializers cache
  | .hybrid => do
      let _ ← s.initializers.mapM fun v => (s.source v).load
      if s.needsCuda then s.buildInitializers s.initializers cache else .ok ([], cache)

end SessionBuild

/-- Sessions that are built one after the other on one cache. -/
def buildSessions : List SessionBuild → (String → Option DeviceBuffer) →
    Except SessionError (List (List (ValueId × InitializerMemory)))
  | [], _ => .ok []
  | s :: rest, cache => do
      let (mems, cache) ← s.build cache
      let sessions ← buildSessions rest cache
      pure (mems :: sessions)

/-! ### What the steps read -/

/-- A step that runs on the device reads the initializer.  A transfer of a hybrid session copies from host
memory. -/
def SessionBuild.DeviceReads (s : SessionBuild) (v : ValueId) : Prop :=
  ∃ step ∈ s.steps, (∃ b ∈ step.reads, b.place = .initializer v) ∧
    match step with
    | .kernel k => k.context.device = .CUDA
    | .transfer _ => s.target ≠ .hybrid
    | .syncWait _ => False

/-- The memory is large enough, and its contents are those of the initializer. -/
def InitializerMemory.HoldsSource (src : InitializerSource) (mem : InitializerMemory) : Prop :=
  ∃ bytes, src.load = .ok bytes ∧
    match mem with
    | device buf => bytes.length ≤ buf.length ∧ buf.take bytes.length = bytes
    | hostWeight weight => weight = bytes

/-- The buffer of a source with these bytes: an empty one still gets a byte. -/
def DeviceBuffer.ofBytes (bytes : Bytes) : DeviceBuffer := if bytes = [] then [0] else bytes

theorem InitializerSource.load_length {src : InitializerSource} {bytes : Bytes} (h : src.load = .ok bytes) :
    bytes.length = src.byteLen := by
  cases src with
  | inline tensor =>
      cases h
      rfl
  | external file offset length =>
      rw [load] at h
      split at h
      · rename_i hlen
        cases h
        rw [List.length_take, List.length_drop, byteLen]
        omega
      · cases h

theorem upload_eq_ok {src : InitializerSource} {buf : DeviceBuffer} :
    upload src = .ok buf ↔ ∃ bytes, src.load = .ok bytes ∧ buf = DeviceBuffer.ofBytes bytes := by
  unfold upload
  dsimp only
  split
  · rename_i hzero
    have hload : src.load = .ok [] := by
      cases src with
      | inline tensor => rw [InitializerSource.load, List.length_eq_zero_iff.mp hzero]
      | external file offset length =>
          change length = 0 at hzero
          rw [InitializerSource.load, if_pos (Or.inl hzero), hzero, List.take_zero]
    rw [hload, hzero]
    constructor
    · intro h
      cases h
      exact ⟨[], rfl, rfl⟩
    · rintro ⟨bytes, hbytes, rfl⟩
      cases hbytes
      rfl
  · rename_i hne
    rw [map_eq_ok]
    refine exists_congr fun bytes => and_congr_right fun hload => ?_
    have hlen := InitializerSource.load_length hload
    have hnil : bytes ≠ [] := by
      rintro rfl
      exact hne hlen.symm
    rw [DeviceBuffer.ofBytes, if_neg hnil, DeviceBuffer.hostToDevice, DeviceBuffer.allocZeroed, hlen,
      Nat.max_eq_left (by omega), List.drop_of_length_le (by rw [List.length_replicate]), List.append_nil, eq_comm]

/-! ### Which buffer a name gets -/

/-- The initializers that the sessions ask for in the cache, by name, in the order of construction. -/
def cachedSources (builds : List SessionBuild) : List (String × InitializerSource) :=
  builds.flatMap fun s => (s.initializers.filter s.isCached).map fun v => (s.name v, s.source v)

/-- The bytes of the initializer begin the buffer of the first one of its name. -/
def MatchesFirst (builds : List SessionBuild) (s : SessionBuild) (v : ValueId) : Prop :=
  ∃ bytes firstBytes source, (s.source v).load = .ok bytes ∧
    (cachedSources builds).find? (fun x => x.1 = s.name v) = some (s.name v, source) ∧
      source.load = .ok firstBytes ∧ bytes <+: DeviceBuffer.ofBytes firstBytes

/-- The requests for these sources. -/
def uploads (l : List (String × InitializerSource)) : List (String × Except SessionError DeviceBuffer) :=
  l.map fun x => (x.1, upload x.2)

theorem first_uploads {l : List (String × InitializerSource)} {name : String} {x : Except SessionError DeviceBuffer} :
    first (uploads l) name = some x ↔
      ∃ source, l.find? (fun y => y.1 = name) = some (name, source) ∧ upload source = x := by
  rw [first, uploads, List.find?_map, Option.map_map, Option.map_eq_some_iff]
  constructor
  · rintro ⟨⟨other, source⟩, hfind, rfl⟩
    have hname := List.find?_some hfind
    obtain rfl : other = name := of_decide_eq_true hname
    exact ⟨source, hfind, rfl⟩
  · rintro ⟨source, hfind, rfl⟩
    exact ⟨(name, source), hfind, rfl⟩

/-- What the loops of a session leave for an initializer. -/
def SessionBuild.Resolves (s : SessionBuild) (log : List (String × Except SessionError DeviceBuffer)) (v : ValueId)
    (mem : InitializerMemory) : Prop :=
  if s.isCached v then ∃ buf, mem = .device buf ∧ first log (s.name v) = some (.ok buf)
  else if s.isHostResident v then ∃ bytes, mem = .hostWeight bytes ∧ (s.source v).load = .ok bytes
  else mem = .device [0]

theorem SessionBuild.Resolves.append {s : SessionBuild} {log : List (String × Except SessionError DeviceBuffer)}
    {v : ValueId} {mem : InitializerMemory} (h : s.Resolves log v mem)
    (log' : List (String × Except SessionError DeviceBuffer)) : s.Resolves (log ++ log') v mem := by
  unfold Resolves at h ⊢
  split
  · rename_i hcached
    rw [if_pos hcached] at h
    obtain ⟨buf, hmem, hfirst⟩ := h
    exact ⟨buf, hmem, first_append_of_some hfirst log'⟩
  · rename_i hcached
    rwa [if_neg hcached] at h

/-! ### The loops -/

theorem build_target {s : SessionBuild} {cache : String → Option DeviceBuffer}
    {x : List (ValueId × InitializerMemory) × (String → Option DeviceBuffer)} (h : s.build cache = .ok x) :
    s.target ≠ .cpu := by
  intro hcpu
  unfold SessionBuild.build at h
  rw [hcpu] at h
  cases h

section Loops

variable {s : SessionBuild} {cache cache' : String → Option DeviceBuffer}
  {log : List (String × Except SessionError DeviceBuffer)}

/-- The requests of a session for these initializers. -/
def SessionBuild.requests (s : SessionBuild) (vs : List ValueId) : List (String × Except SessionError DeviceBuffer) :=
  uploads ((vs.filter s.isCached).map fun v => (s.name v, s.source v))

theorem SessionBuild.requests_cons (s : SessionBuild) (v : ValueId) (vs : List ValueId) :
    s.requests (v :: vs) = s.requests [v] ++ s.requests vs := by
  unfold SessionBuild.requests uploads
  rw [← List.map_append, ← List.map_append, ← List.filter_append, List.singleton_append]

theorem buildInitializer_spec {v : ValueId} {mem : InitializerMemory} (h : Holds cache log)
    (hok : s.buildInitializer cache v = .ok (mem, cache')) :
    Holds cache' (log ++ s.requests [v]) ∧ s.Resolves (log ++ s.requests [v]) v mem := by
  unfold SessionBuild.buildInitializer at hok
  by_cases hcached : s.isCached v = true
  · have hreq : s.requests [v] = [(s.name v, upload (s.source v))] := by
      rw [SessionBuild.requests, List.filter_cons_of_pos hcached]
      rfl
    rw [if_pos hcached] at hok
    obtain ⟨⟨buf, cache''⟩, hget, hpair⟩ := map_eq_ok.mp hok
    cases hpair
    obtain ⟨hholds, hfirst⟩ := h.getOrInsertWith hget
    rw [hreq]
    refine ⟨hholds, ?_⟩
    rw [SessionBuild.Resolves, if_pos hcached]
    exact ⟨buf, rfl, hfirst⟩
  · have hreq : s.requests [v] = [] := by
      rw [SessionBuild.requests, List.filter_cons_of_neg hcached]
      rfl
    rw [if_neg hcached] at hok
    rw [hreq, List.append_nil, SessionBuild.Resolves, if_neg hcached]
    split at hok
    · rename_i hhost
      obtain ⟨bytes, hload, hpair⟩ := map_eq_ok.mp hok
      cases hpair
      rw [if_pos hhost]
      exact ⟨h, bytes, rfl, hload⟩
    · rename_i hhost
      cases hok
      rw [if_neg hhost]
      exact ⟨h, rfl⟩

theorem buildInitializers_spec {vs : List ValueId} {mems : List (ValueId × InitializerMemory)} (h : Holds cache log)
    (hok : s.buildInitializers vs cache = .ok (mems, cache')) :
    Holds cache' (log ++ s.requests vs) ∧
      List.Forall₂ (fun v x => x.1 = v ∧ s.Resolves (log ++ s.requests vs) v x.2) vs mems := by
  induction vs generalizing cache log mems with
  | nil =>
      cases hok
      have hnil : s.requests [] = [] := rfl
      rw [hnil, List.append_nil]
      exact ⟨h, .nil⟩
  | cons v vs ih =>
      unfold SessionBuild.buildInitializers at hok
      simp only [do_eq_ok, pure_eq_ok] at hok
      obtain ⟨⟨mem, cache₁⟩, hone, ⟨rest, cache₂⟩, hrest, hpair⟩ := hok
      cases hpair
      obtain ⟨hholds, hres⟩ := buildInitializer_spec h hone
      obtain ⟨hholds', hall⟩ := ih hholds hrest
      rw [SessionBuild.requests_cons, ← List.append_assoc]
      exact ⟨hholds', .cons ⟨rfl, hres.append _⟩ hall⟩

theorem requests_of_not_needsCuda (htarget : s.target = .hybrid) (h : s.needsCuda = false) (vs : List ValueId) :
    s.requests vs = [] := by
  have hnone : ∀ v, s.isCached v = false := by
    intro v
    have hplaces : s.steps.flatMap SessionBuild.gpuPlaces = [] := by
      refine List.flatMap_eq_nil_iff.mpr fun step hstep => ?_
      have hstep' := List.any_eq_false.mp h step hstep
      cases step with
      | kernel k => exact if_neg (by simpa using hstep')
      | transfer t => exact absurd rfl hstep'
      | syncWait w => rfl
    rw [SessionBuild.isCached, htarget]
    show (s.steps.flatMap SessionBuild.gpuPlaces).contains _ = false
    rw [hplaces]
    rfl
  have hfilter : vs.filter s.isCached = [] := List.filter_eq_nil_iff.mpr fun v _ => by simp [hnone v]
  rw [SessionBuild.requests, hfilter]
  rfl

/-- Every initializer has its memory, unless no step needs the device. -/
theorem build_spec {mems : List (ValueId × InitializerMemory)} (h : Holds cache log)
    (hok : s.build cache = .ok (mems, cache')) :
    Holds cache' (log ++ s.requests s.initializers) ∧
      (∀ x ∈ mems, s.Resolves (log ++ s.requests s.initializers) x.1 x.2) ∧
        (mems.map Prod.fst = s.initializers ∨ s.target = .hybrid ∧ s.needsCuda = false) := by
  have hloop : s.buildInitializers s.initializers cache = .ok (mems, cache') →
      Holds cache' (log ++ s.requests s.initializers) ∧
        (∀ x ∈ mems, s.Resolves (log ++ s.requests s.initializers) x.1 x.2) ∧ mems.map Prod.fst = s.initializers := by
    intro hok
    obtain ⟨hholds, hall⟩ := buildInitializers_spec h hok
    refine ⟨hholds, fun x hx => ?_, ?_⟩
    · obtain ⟨i, hi, rfl⟩ := List.mem_iff_getElem.mp hx
      have hi' : i < s.initializers.length := hall.length_eq ▸ hi
      obtain ⟨hv, hres⟩ := hall.get hi' hi
      rw [← hv] at hres
      exact hres
    · have hfst : List.Forall₂ (fun x v => x.1 = v) mems s.initializers := (hall.imp fun v x hx => hx.1).flip
      rwa [← List.forall₂_eq_eq_eq, List.forall₂_map_left_iff]
  unfold SessionBuild.build at hok
  split at hok
  · cases hok
  · obtain ⟨hholds, hres, hmems⟩ := hloop hok
    exact ⟨hholds, hres, Or.inl hmems⟩
  · rename_i htarget
    obtain ⟨-, -, hok⟩ := do_eq_ok.mp hok
    split at hok
    · obtain ⟨hholds, hres, hmems⟩ := hloop hok
      exact ⟨hholds, hres, Or.inl hmems⟩
    · rename_i hneeds
      have hneeds : s.needsCuda = false := by simpa using hneeds
      cases hok
      rw [requests_of_not_needsCuda htarget hneeds, List.append_nil]
      exact ⟨h, nofun, Or.inr ⟨htarget, hneeds⟩⟩

/-- Every session finds what was uploaded first under a name. -/
theorem buildSessions_spec {builds : List SessionBuild} {sessions : List (List (ValueId × InitializerMemory))}
    (h : Holds cache log) (hok : buildSessions builds cache = .ok sessions) :
    List.Forall₂ (fun s mems => s.target ≠ .cpu ∧
      (∀ x ∈ mems, s.Resolves (log ++ uploads (cachedSources builds)) x.1 x.2) ∧
        (mems.map Prod.fst = s.initializers ∨ s.target = .hybrid ∧ s.needsCuda = false)) builds sessions := by
  induction builds generalizing cache log sessions with
  | nil =>
      cases hok
      exact .nil
  | cons s builds ih =>
      unfold buildSessions at hok
      simp only [do_eq_ok, pure_eq_ok] at hok
      obtain ⟨⟨mems, cache₁⟩, hone, rest, hrest, rfl⟩ := hok
      obtain ⟨hholds, hres, hmems⟩ := build_spec h hone
      have hcons : uploads (cachedSources (s :: builds)) =
          s.requests s.initializers ++ uploads (cachedSources builds) := by
        unfold SessionBuild.requests uploads cachedSources
        rw [List.flatMap_cons, List.map_append]
      rw [hcons, ← List.append_assoc]
      exact .cons ⟨build_target hone, fun x hx => (hres x hx).append _, hmems⟩ (ih hholds hrest)

end Loops

section Reads

variable {s : SessionBuild} {v : ValueId} {mem : InitializerMemory}
  {log : List (String × Except SessionError DeviceBuffer)}

/-- A step of the device reads an initializer from the cache or from its host memory. -/
theorem SessionBuild.DeviceReads.cached_or_host (h : s.DeviceReads v) (htarget : s.target ≠ .cpu) :
    s.isCached v = true ∨ s.isHostResident v = true := by
  unfold isCached
  cases hkind : s.target with
  | cpu => exact absurd hkind htarget
  | cuda disabled =>
      cases s.isHostResident v with
      | false => exact Or.inl rfl
      | true => exact Or.inr rfl
  | hybrid =>
      left
      obtain ⟨step, hstep, ⟨b, hb, hplace⟩, hdevice⟩ := h
      show (s.steps.flatMap gpuPlaces).contains (.initializer v) = true
      rw [List.contains_iff_mem, List.mem_flatMap]
      refine ⟨step, hstep, ?_⟩
      rw [← hplace]
      cases step with
      | kernel k =>
          have hmem : b ∈ k.bindings := (List.mem_filter.mp hb).1
          rw [gpuPlaces, if_pos hdevice]
          exact List.mem_map_of_mem hmem
      | syncWait w => cases hb
      | transfer t => exact absurd hkind hdevice

theorem SessionBuild.DeviceReads.needsCuda (h : s.DeviceReads v) :
    s.needsCuda = true := by
  obtain ⟨step, hstep, ⟨b, hb, -⟩, hdevice⟩ := h
  refine List.any_eq_true.mpr ⟨step, hstep, ?_⟩
  cases step with
  | kernel k => exact beq_iff_eq.mpr hdevice
  | syncWait w => cases hb
  | transfer t => rfl

theorem SessionBuild.not_cached_of_host (h : s.isHostResident v = true) : s.isCached v = false := by
  unfold isCached
  cases hkind : s.target with
  | cpu => rfl
  | cuda disabled =>
      show (!s.isHostResident v) = false
      rw [h]
      rfl
  | hybrid =>
      unfold isHostResident at h
      rw [hkind] at h
      cases h

/-- A host-resident weight is always its own; a buffer from the cache is the one of its name. -/
theorem SessionBuild.Resolves.holdsSource_iff {builds : List SessionBuild}
    (h : s.Resolves (uploads (cachedSources builds)) v mem)
    (hread : s.isCached v = true ∨ s.isHostResident v = true) :
    mem.HoldsSource (s.source v) ↔ s.isHostResident v = true ∨ MatchesFirst builds s v := by
  unfold Resolves at h
  by_cases hhost : s.isHostResident v = true
  · rw [if_neg (by rw [not_cached_of_host hhost]; exact Bool.false_ne_true), if_pos hhost] at h
    obtain ⟨bytes, rfl, hload⟩ := h
    exact iff_of_true ⟨bytes, hload, rfl⟩ (Or.inl hhost)
  · rw [if_pos (hread.resolve_right hhost)] at h
    obtain ⟨buf, rfl, hfirst⟩ := h
    obtain ⟨source, hfind, hupload⟩ := first_uploads.mp hfirst
    obtain ⟨firstBytes, hfirstLoad, rfl⟩ := upload_eq_ok.mp hupload
    rw [or_iff_right hhost]
    constructor
    · rintro ⟨bytes, hload, -, htake⟩
      refine ⟨bytes, firstBytes, source, hload, hfind, hfirstLoad, ?_⟩
      rw [List.prefix_iff_eq_take]
      exact htake.symm
    · rintro ⟨bytes, firstBytes', source', hload, hfind', hfirstLoad', hbytes⟩
      obtain rfl : source = source' := congrArg Prod.snd (Option.some.inj (hfind.symm.trans hfind'))
      obtain rfl : firstBytes = firstBytes' := Except.ok.inj (hfirstLoad.symm.trans hfirstLoad')
      exact ⟨bytes, hload, hbytes.length_le, (List.prefix_iff_eq_take.mp hbytes).symm⟩

end Reads

/-- In the sessions of one cache an initializer that the device reads is its own, if it is streamed from the host
or if its bytes begin the first upload under its name. -/
theorem sharedInitializers_iff {builds : List SessionBuild} {sessions : List (List (ValueId × InitializerMemory))}
    (h : buildSessions builds (fun _ => none) = .ok sessions) :
    List.Forall₂ (fun s mems => ∀ v ∈ s.initializers, s.DeviceReads v → (∃ mem, (v, mem) ∈ mems) ∧
      ∀ mem, (v, mem) ∈ mems →
        (mem.HoldsSource (s.source v) ↔ s.isHostResident v = true ∨ MatchesFirst builds s v))
      builds sessions := by
  refine (buildSessions_spec holds_empty h).imp fun s mems hs v hv hread => ?_
  obtain ⟨htarget, hres, hmems⟩ := hs
  rw [List.nil_append] at hres
  refine ⟨?_, fun mem hmem => (hres _ hmem).holdsSource_iff (hread.cached_or_host htarget)⟩
  obtain hmems | ⟨-, hneeds⟩ := hmems
  · rw [← hmems] at hv
    obtain ⟨⟨v, mem⟩, hmem, rfl⟩ := List.mem_map.mp hv
    exact ⟨mem, hmem⟩
  · rw [hread.needsCuda] at hneeds
    cases hneeds

/-! ### Two sessions -/

/-- A session whose one kernel reads the initializer 0 on the device. -/
def readingSession (bytes : Bytes) : SessionBuild where
  target := .hybrid
  initializers := [0]
  executionPlan := some
    { steps := [.kernel
        { kernel := 0
          context := { device := .CUDA, stream := 0 }
          bindings := [{ value := 0, role := .input, place := .initializer 0, isFirstUse := false }]
          recordsEvent := none }]
      chunks := []
      arenas := []
      events := []
      streamCount := 1 }
  name := fun _ => "folded_split"
  source := fun _ => .inline bytes

theorem readingSession_deviceReads (bytes : Bytes) : (readingSession bytes).DeviceReads 0 :=
  ⟨_, List.mem_singleton.mpr rfl, ⟨_, List.mem_singleton.mpr rfl, rfl⟩, rfl⟩

/-- Two sessions with one constant of equal bytes. -/
theorem readingSession_shares :
    List.Forall₂ (fun (s : SessionBuild) (mems : List (ValueId × InitializerMemory)) =>
      ∀ v ∈ s.initializers, s.DeviceReads v → (∃ mem, (v, mem) ∈ mems) ∧ ∀ mem, (v, mem) ∈ mems →
        (mem.HoldsSource (s.source v) ↔ s.isHostResident v = true ∨
          MatchesFirst [readingSession [1], readingSession [1]] s v))
      [readingSession [1], readingSession [1]] [[(0, .device [1])], [(0, .device [1])]] :=
  sharedInitializers_iff rfl

/-- The second session reads the constant of the first one, which has the same name. -/
theorem readingSession_collides :
    buildSessions [readingSession [1], readingSession [2]] (fun _ => none) =
        .ok [[(0, .device [1])], [(0, .device [1])]] ∧
      (readingSession [2]).DeviceReads 0 ∧
        ¬ InitializerMemory.HoldsSource ((readingSession [2]).source 0) (.device [1]) := by
  refine ⟨rfl, readingSession_deviceReads [2], ?_⟩
  rintro ⟨bytes, hbytes, -, htake⟩
  cases hbytes
  cases htake

end NnEngine
