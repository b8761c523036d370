import PgMux.DbGroups
import PgMux.Runs

/-!
# Pools that leak

What a reload closes is decided by the address alone, what it replaces by the address and the
credentials. A pool that is replaced under its own address stays open without being used.
-/

namespace PgMux.PoolLeaks

open DbGroups

/-! ## Leaks -/

def Current (g : DatabaseGroup) (p : Pool) : Prop :=
  p = g.writerPool ∨ ∃ addr, g.readerPools.lookup addr = some p

def NoLeak (g : DatabaseGroup) : Prop := ∀ p ∈ g.made, p ∉ g.closed → Current g p

/-- With new credentials no address keeps a reader, and none that needs a new pool is there
twice. -/
def Clean (g : DatabaseGroup) (cfg : DatabaseConfig × CircuitBreakerConfig) : Prop :=
  (g.credsChanged cfg.1 → ∀ addr ∈ cfg.1.readerAddrs, addr ∉ g.readerPools) ∧
    (cfg.1.readerAddrs.filter (g.kept cfg.1 · = none)).Nodup

structure Sound (g : DatabaseGroup) : Prop where
  numbered : Numbered g.made
  writer : g.writerPool ∈ g.made
  reader : ∀ addr p, g.readerPools.lookup addr = some p → p ∈ g.made ∧ p.addr = addr ∧
    p ≠ g.writerPool
  closed : ∀ p ∈ g.closed, p ∈ g.made ∧ ¬ Current g p

variable {g : DatabaseGroup} {p : Pool} {addr : Bytes}

theorem current_iff (hg : Sound g) :
    Current g p ↔ p = g.writerPool ∨ g.readerPools.lookup p.addr = some p := by
  refine or_congr_right ⟨fun ⟨addr, h⟩ => ?_, fun h => ⟨p.addr, h⟩⟩
  rw [(hg.reader addr p h).2.1]
  exact h

theorem ne_newPool {made : List Pool} (h : Numbered made) (hp : p ∈ made) (addr : Bytes)
    (cfg : DatabaseConfig) : p ≠ newPool made addr cfg := by
  rintro rfl
  exact Nat.lt_irrefl _ (h _ hp)

section

variable {g : DatabaseGroup} (hg : Sound g) (cfg : DatabaseConfig)

include hg

theorem Sound.reloadWriter : Sound (g.reloadWriter cfg) := by
  unfold DatabaseGroup.reloadWriter
  split
  · have hold := fun p hp => ne_newPool hg.numbered (p := p) hp cfg.writer.addr cfg
    refine ⟨hg.numbered.append cfg _, by simp, fun addr p hp => ?_, fun p hp => ?_⟩
    · obtain ⟨hmade, haddr, _⟩ := hg.reader addr p hp
      exact ⟨List.mem_append_left _ hmade, haddr, hold p hmade⟩
    · obtain hp | hp := List.mem_append.mp hp
      · obtain ⟨hmade, hnot⟩ := hg.closed p hp
        refine ⟨List.mem_append_left _ hmade, ?_⟩
        rintro (hw | hr)
        · exact hold p hmade hw
        · exact hnot (.inr hr)
      · obtain rfl := List.mem_singleton.mp hp
        refine ⟨List.mem_append_left _ hg.writer, ?_⟩
        rintro (hw | ⟨addr, hr⟩)
        · exact hold _ hg.writer hw
        · exact (hg.reader addr _ hr).2.2 rfl
  · exact hg

theorem noLeak_reloadWriter_iff : NoLeak (g.reloadWriter cfg) ↔ NoLeak g := by
  unfold DatabaseGroup.reloadWriter
  split
  · have hold := fun p hp => ne_newPool hg.numbered (p := p) hp cfg.writer.addr cfg
    constructor
    · intro h p hp hopen
      by_cases hw : p = g.writerPool
      · exact .inl hw
      · obtain hnew | hr := h p (List.mem_append_left _ hp) (by simp [hopen, hw])
        · exact absurd hnew (hold p hp)
        · exact .inr hr
    · intro h p hp hopen
      obtain hp | hp := List.mem_append.mp hp
      · obtain ⟨hopen, hw⟩ : p ∉ g.closed ∧ p ≠ g.writerPool := by simpa using hopen
        exact .inr ((h p hp hopen).resolve_left hw)
      · exact .inl (List.mem_singleton.mp hp)
  · exact Iff.rfl

theorem lookup_reloadReaders (h : (g.reloadReaders cfg).readerPools.lookup addr = some p) :
    addr ∈ cfg.readerAddrs ∧ (g.kept cfg addr = some p ∨
      (g.kept cfg addr = none ∧ p.addr = addr ∧ g.made.length ≤ p.ref ∧
        p ∈ (g.reloadReaders cfg).made)) := by
  have hmem : addr ∈ cfg.readerAddrs := by
    rw [← makeReaders_mem_iff cfg (g.kept cfg) _ hg.numbered, ← AList.lookup_isSome]
    exact Option.isSome_iff_exists.mpr ⟨p, h⟩
  obtain ⟨p', hp', hor⟩ := makeReaders_lookup_of_mem cfg (g.kept cfg) hmem hg.numbered ∅
  obtain rfl : p = p' := Option.some.inj (h.symm.trans hp')
  exact ⟨hmem, hor⟩

omit hg in
theorem lookup_of_kept (h : g.kept cfg addr = some p) :
    g.readerPools.lookup addr = some p ∧ g.credsChanged cfg = false := by
  unfold DatabaseGroup.kept at h
  split at h
  · simp at h
  · rename_i hsame
    exact ⟨h, by simpa using hsame⟩

theorem mem_closed_reloadReaders : p ∈ (g.reloadReaders cfg).closed ↔
      p ∈ g.closed ∨ ∃ addr, g.readerPools.lookup addr = some p ∧ addr ∉ cfg.readerAddrs := by
  simp only [DatabaseGroup.reloadReaders, List.mem_append, List.mem_map, List.mem_filter,
    decide_eq_true_eq, makeReaders_mem_iff cfg (g.kept cfg) _ hg.numbered]
  refine or_congr_right ⟨?_, ?_⟩
  · rintro ⟨⟨addr, p'⟩, ⟨he, hnot⟩, rfl⟩
    exact ⟨addr, AList.mem_lookup_iff.mpr he, hnot⟩
  · rintro ⟨addr, hlookup, hnot⟩
    exact ⟨⟨addr, p⟩, ⟨AList.mem_lookup_iff.mp hlookup, hnot⟩, rfl⟩

theorem current_of_reloadReaders (hp : p ∈ g.made) (h : Current (g.reloadReaders cfg) p) :
    p = g.writerPool ∨ ∃ addr ∈ cfg.readerAddrs, g.kept cfg addr = some p := by
  refine h.imp_right fun ⟨addr, hr⟩ => ?_
  obtain ⟨hmem, hkept | ⟨_, _, href, _⟩⟩ := lookup_reloadReaders hg cfg hr
  · exact ⟨addr, hmem, hkept⟩
  · exact absurd (hg.numbered p hp) (by omega)

theorem Sound.reloadReaders : Sound (g.reloadReaders cfg) := by
  obtain ⟨hnumbered, hsub, _⟩ := makeReaders_made cfg (g.kept cfg) cfg.readerAddrs hg.numbered ∅
  refine ⟨hnumbered, hsub hg.writer, fun addr p hp => ?_, fun p hp => ?_⟩
  · obtain ⟨_, hkept | ⟨_, haddr, href, hmade⟩⟩ := lookup_reloadReaders hg cfg hp
    · obtain ⟨hmade, haddr, hw⟩ := hg.reader addr p (lookup_of_kept cfg hkept).1
      exact ⟨hsub hmade, haddr, hw⟩
    · refine ⟨hmade, haddr, fun hw => ?_⟩
      have hold : p.ref < g.made.length := hg.numbered p (hw ▸ hg.writer)
      omega
  · obtain hold | ⟨addr, hlookup, hnot⟩ := (mem_closed_reloadReaders hg cfg).mp hp
    · obtain ⟨hmade, hfree⟩ := hg.closed p hold
      refine ⟨hsub hmade, fun hcurrent => hfree ?_⟩
      refine (current_of_reloadReaders hg cfg hmade hcurrent).imp_right fun ⟨addr, _, hkept⟩ => ?_
      exact ⟨addr, (lookup_of_kept cfg hkept).1⟩
    · obtain ⟨hmade, haddr, hw⟩ := hg.reader addr p hlookup
      refine ⟨hsub hmade, fun hcurrent => ?_⟩
      obtain ⟨addr', hmem, hkept⟩ :=
        (current_of_reloadReaders hg cfg hmade hcurrent).resolve_left hw
      have haddr' := (hg.reader addr' p (lookup_of_kept cfg hkept).1).2.1
      exact hnot (haddr ▸ haddr' ▸ hmem)

theorem lookup_reloadReaders_of_kept (hmem : addr ∈ cfg.readerAddrs)
    (h : g.kept cfg addr = some p) : (g.reloadReaders cfg).readerPools.lookup addr = some p := by
  obtain ⟨p', hp', hkept | ⟨hnone, _⟩⟩ :=
    makeReaders_lookup_of_mem cfg (g.kept cfg) hmem hg.numbered ∅
  · rw [h] at hkept
    rw [Option.some.inj hkept]
    exact hp'
  · simp [h] at hnone

theorem open_reloadReaders (hmem : addr ∈ cfg.readerAddrs)
    (h : g.readerPools.lookup addr = some p) : p ∉ (g.reloadReaders cfg).closed := by
  intro hclosed
  obtain hold | ⟨addr', hlookup, hnot⟩ := (mem_closed_reloadReaders hg cfg).mp hclosed
  · exact (hg.closed p hold).2 (.inr ⟨addr, h⟩)
  · have haddr := (hg.reader addr p h).2.1
    have haddr' := (hg.reader addr' p hlookup).2.1
    exact hnot (haddr' ▸ haddr ▸ hmem)

theorem noLeak_reloadReaders_iff : NoLeak (g.reloadReaders cfg) ↔
      NoLeak g ∧ (g.credsChanged cfg → ∀ addr ∈ cfg.readerAddrs, addr ∉ g.readerPools) ∧
        (cfg.readerAddrs.filter (g.kept cfg · = none)).Nodup := by
  obtain ⟨_, hsub, hnew⟩ := makeReaders_made cfg (g.kept cfg) cfg.readerAddrs hg.numbered ∅
  rw [← makeReaders_current_iff cfg (g.kept cfg) cfg.readerAddrs hg.numbered ∅]
  constructor
  · intro h
    refine ⟨fun p hp hopen => ?_, fun hcreds addr hmem hreader => ?_, fun p hp href => ?_⟩
    · by_cases hopen' : p ∈ (g.reloadReaders cfg).closed
      · obtain hold | ⟨addr, hlookup, _⟩ := (mem_closed_reloadReaders hg cfg).mp hopen'
        · exact absurd hold hopen
        · exact .inr ⟨addr, hlookup⟩
      · refine (current_of_reloadReaders hg cfg hp (h p (hsub hp) hopen')).imp_right
          fun ⟨addr, _, hkept⟩ => ?_
        exact ⟨addr, (lookup_of_kept cfg hkept).1⟩
    · -- the old pool of the address is neither closed nor in use
      obtain ⟨p, hlookup⟩ := Option.isSome_iff_exists.mp (AList.lookup_isSome.mpr hreader)
      obtain ⟨hmade, _, hw⟩ := hg.reader addr p hlookup
      have hcurrent := h p (hsub hmade) (open_reloadReaders hg cfg hmem hlookup)
      obtain ⟨_, _, hkept⟩ := (current_of_reloadReaders hg cfg hmade hcurrent).resolve_left hw
      simp [(lookup_of_kept cfg hkept).2] at hcreds
    · have hnotMade : p ∉ g.made := fun hmade => absurd (hg.numbered p hmade) (by omega)
      have hopen : p ∉ (g.reloadReaders cfg).closed := by
        intro hclosed
        obtain hold | ⟨addr, hlookup, _⟩ := (mem_closed_reloadReaders hg cfg).mp hclosed
        · exact hnotMade (hg.closed p hold).1
        · exact hnotMade (hg.reader addr p hlookup).1
      obtain hw | ⟨addr, hlookup⟩ := h p hp hopen
      · exact absurd (hw ▸ hg.writer) hnotMade
      · obtain ⟨_, hkept | ⟨_, haddr, _⟩⟩ := lookup_reloadReaders hg cfg hlookup
        · exact absurd (hg.reader addr p (lookup_of_kept cfg hkept).1).1 hnotMade
        · rw [haddr]
          exact hlookup
  · rintro ⟨hleak, hcreds, hfresh⟩ p hp hopen
    obtain hmade | href := hnew p hp
    · have hopen' : p ∉ g.closed := fun hold =>
        hopen ((mem_closed_reloadReaders hg cfg).mpr (.inl hold))
      refine (hleak p hmade hopen').imp_right fun ⟨addr, hlookup⟩ => ⟨addr, ?_⟩
      have hmem : addr ∈ cfg.readerAddrs := by
        by_contra hnot
        exact hopen ((mem_closed_reloadReaders hg cfg).mpr (.inr ⟨addr, hlookup, hnot⟩))
      refine lookup_reloadReaders_of_kept hg cfg hmem ?_
      unfold DatabaseGroup.kept
      split
      · rename_i hchanged
        exact absurd (AList.lookup_isSome.mp (Option.isSome_iff_exists.mpr ⟨p, hlookup⟩))
          (hcreds hchanged addr hmem)
      · exact hlookup
    · exact .inr ⟨p.addr, hfresh p hp href⟩

end

/-! ## Whole histories -/

section

variable (dbCfg : DatabaseConfig) (cbCfg : CircuitBreakerConfig)

theorem lookup_new (h : (newDatabaseGroup dbCfg cbCfg).readerPools.lookup addr = some p) :
    p.addr = addr ∧ 1 ≤ p.ref ∧ p ∈ (newDatabaseGroup dbCfg cbCfg).made := by
  have hnumbered := numbered_single dbCfg dbCfg.writer.addr
  have hmem : addr ∈ dbCfg.readerAddrs := by
    rw [← makeReaders_mem_iff dbCfg (fun _ => none) _ hnumbered, ← AList.lookup_isSome]
    exact Option.isSome_iff_exists.mpr ⟨p, h⟩
  obtain ⟨p', hp', hsome | ⟨_, haddr, href, hmade⟩⟩ :=
    makeReaders_lookup_of_mem dbCfg (fun _ => none) hmem hnumbered ∅
  · simp at hsome
  · obtain rfl : p = p' := Option.some.inj (h.symm.trans hp')
    exact ⟨haddr, href, hmade⟩

theorem sound_new : Sound (newDatabaseGroup dbCfg cbCfg) := by
  obtain ⟨hnumbered, hsub, _⟩ :=
    makeReaders_made dbCfg (fun _ => none) dbCfg.readerAddrs
      (numbered_single dbCfg dbCfg.writer.addr) ∅
  refine ⟨hnumbered, hsub List.mem_cons_self, fun addr p hp => ?_,
    fun p hp => absurd hp List.not_mem_nil⟩
  obtain ⟨haddr, href, hmade⟩ := lookup_new dbCfg cbCfg hp
  refine ⟨hmade, haddr, ?_⟩
  rintro rfl
  exact absurd href (by simp [newDatabaseGroup, newPool])

theorem noLeak_new_iff : NoLeak (newDatabaseGroup dbCfg cbCfg) ↔ dbCfg.readerAddrs.Nodup := by
  have hnumbered := numbered_single dbCfg dbCfg.writer.addr
  obtain ⟨_, _, hnew⟩ := makeReaders_made dbCfg (fun _ => none) dbCfg.readerAddrs hnumbered ∅
  have hiff := makeReaders_current_iff dbCfg (fun _ => none) dbCfg.readerAddrs hnumbered ∅
  rw [show dbCfg.readerAddrs.filter (fun _ => decide ((none : Option Pool) = none)) =
    dbCfg.readerAddrs by simp] at hiff
  rw [← hiff]
  constructor
  · intro h p hp href
    obtain rfl | ⟨addr, hlookup⟩ := h p hp List.not_mem_nil
    · exact absurd href (by simp [newDatabaseGroup, newPool])
    · rw [(lookup_new dbCfg cbCfg hlookup).1]
      exact hlookup
  · intro h p hp _
    obtain hw | href := hnew p hp
    · exact .inl (List.mem_singleton.mp hw)
    · exact .inr ⟨p.addr, h p hp href⟩

end

section

variable {g : DatabaseGroup} (hg : Sound g) (cfg : DatabaseConfig × CircuitBreakerConfig)

theorem reloadWriter_readers :
    (g.reloadWriter cfg.1).readerPools = g.readerPools ∧
    (g.reloadWriter cfg.1).backendCfg = g.backendCfg := by
  unfold DatabaseGroup.reloadWriter
  split
  all_goals exact ⟨rfl, rfl⟩

theorem kept_reloadWriter :
    (g.reloadWriter cfg.1).kept cfg.1 = g.kept cfg.1 ∧
    (g.reloadWriter cfg.1).credsChanged cfg.1 = g.credsChanged cfg.1 := by
  obtain ⟨hreaders, hbackend⟩ := reloadWriter_readers (g := g) cfg
  have hcreds : (g.reloadWriter cfg.1).credsChanged cfg.1 = g.credsChanged cfg.1 := by
    simp only [DatabaseGroup.credsChanged, hbackend]
  refine ⟨?_, hcreds⟩
  funext addr
  simp only [DatabaseGroup.kept, hcreds, hreaders]

include hg

theorem Sound.reload : Sound (g.reload cfg) := by
  have h := (hg.reloadWriter cfg.1).reloadReaders cfg.1
  unfold DatabaseGroup.reload DatabaseGroup.reloadBreakers
  split
  all_goals exact ⟨h.numbered, h.writer, h.reader, h.closed⟩

theorem noLeak_reload_iff : NoLeak (g.reload cfg) ↔ NoLeak g ∧ Clean g cfg := by
  have hbreakers : NoLeak (g.reload cfg) ↔ NoLeak ((g.reloadWriter cfg.1).reloadReaders cfg.1) := by
    unfold DatabaseGroup.reload DatabaseGroup.reloadBreakers
    split
    all_goals exact Iff.rfl
  obtain ⟨hkept, hcreds⟩ := kept_reloadWriter (g := g) cfg
  rw [hbreakers, noLeak_reloadReaders_iff (hg.reloadWriter cfg.1), noLeak_reloadWriter_iff hg,
    hkept, hcreds, (reloadWriter_readers cfg).1]
  exact Iff.rfl

theorem kept_reload (hmem : addr ∈ cfg.1.readerAddrs) (hcreds : g.backendCfg = cfg.1.backend)
    (h : g.readerPools.lookup addr = some p) :
    (g.reload cfg).readerPools.lookup addr = some p ∧ p ∉ (g.reload cfg).closed := by
  have hw := hg.reloadWriter cfg.1
  have hbreakers : (g.reload cfg).readerPools =
      ((g.reloadWriter cfg.1).reloadReaders cfg.1).readerPools := by
    unfold DatabaseGroup.reload DatabaseGroup.reloadBreakers
    split
    all_goals rfl
  have hkept : (g.reloadWriter cfg.1).kept cfg.1 addr = some p := by
    rw [(kept_reloadWriter cfg).1]
    simp [DatabaseGroup.kept, DatabaseGroup.credsChanged, hcreds, h]
  have hlookup : (g.reload cfg).readerPools.lookup addr = some p := by
    rw [hbreakers]
    exact lookup_reloadReaders_of_kept hw cfg.1 hmem hkept
  exact ⟨hlookup, fun hclosed => ((hg.reload cfg).closed p hclosed).2 (.inr ⟨addr, hlookup⟩)⟩

end

theorem inStep_reload (hg : Sound g) (cfg : DatabaseConfig × CircuitBreakerConfig) :
    InStep (g.reload cfg) cfg := by
  have hpools := makeReaders_mem_iff cfg.1 ((g.reloadWriter cfg.1).kept cfg.1) cfg.1.readerAddrs
    (hg.reloadWriter cfg.1).numbered
  unfold DatabaseGroup.reload DatabaseGroup.reloadBreakers
  split
  · rename_i henabled
    exact ⟨hpools, Balancer.RoundRobin.addrs_updateBackends _ _,
      fun _ => ⟨_, rfl, mem_makeBreakers _ _ _⟩, fun h => by simp [henabled] at h, rfl⟩
  · rename_i hdisabled
    exact ⟨hpools, Balancer.RoundRobin.addrs_updateBackends _ _, fun h => absurd h hdisabled,
      fun _ => ⟨rfl, rfl⟩, rfl⟩

def after (first : DatabaseConfig × CircuitBreakerConfig)
    (reloads : List (DatabaseConfig × CircuitBreakerConfig)) : DatabaseGroup :=
  reloads.foldl DatabaseGroup.reload (newDatabaseGroup first.1 first.2)

section

variable (first : DatabaseConfig × CircuitBreakerConfig)
  (reloads : List (DatabaseConfig × CircuitBreakerConfig))

theorem sound_reloads (hg : Sound g) : Sound (reloads.foldl DatabaseGroup.reload g) := by
  induction reloads generalizing g with
  | nil => exact hg
  | cons cfg reloads ih => exact ih (hg.reload cfg)

theorem noLeak_reloads_iff (hg : Sound g) :
    NoLeak (reloads.foldl DatabaseGroup.reload g) ↔ NoLeak g ∧
    Runs.Each DatabaseGroup.reload Clean g reloads := by
  induction reloads generalizing g with
  | nil => simp [Runs.Each]
  | cons cfg reloads ih =>
    rw [List.foldl_cons, ih (hg.reload cfg), noLeak_reload_iff hg, and_assoc]
    exact Iff.rfl

theorem inStep_after : InStep (after first reloads) (reloads.getLastD first) := by
  obtain rfl | ⟨earlier, last, rfl⟩ := reloads.eq_nil_or_concat
  · exact inStep_new first.1 first.2
  · rw [List.concat_eq_append, after, List.foldl_concat, List.getLastD_concat]
    exact inStep_reload (sound_reloads earlier (sound_new first.1 first.2)) last

/-- Nothing has leaked just if no address came twice and every reload was clean. -/
theorem reloads_leak_iff :
    (NoLeak (after first reloads) ↔
        first.1.readerAddrs.Nodup ∧
        Runs.Each DatabaseGroup.reload Clean (newDatabaseGroup first.1 first.2) reloads) ∧
      InStep (after first reloads) (reloads.getLastD first) ∧
      ∀ cfg addr p, addr ∈ cfg.1.readerAddrs → (reloads.getLastD first).1.backend = cfg.1.backend →
        (after first reloads).readerPools.lookup addr = some p →
          (after first (reloads ++ [cfg])).readerPools.lookup addr = some p ∧
          p ∉ (after first (reloads ++ [cfg])).closed := by
  have hnew : Sound (newDatabaseGroup first.1 first.2) := sound_new first.1 first.2
  have hinStep := inStep_after first reloads
  refine ⟨?_, hinStep, fun cfg addr p hmem hbackend hlookup => ?_⟩
  · rw [after, noLeak_reloads_iff reloads hnew, noLeak_new_iff]
  · rw [after, List.foldl_append, List.foldl_cons, List.foldl_nil]
    exact kept_reload (sound_reloads reloads hnew) cfg hmem (hinStep.backend.trans hbackend) hlookup

end

def config (user : String) (readers : List String) : DatabaseConfig × CircuitBreakerConfig :=
  ⟨⟨⟨ascii "w", 1⟩, readers.map fun r => ⟨ascii r, 1⟩, ⟨ascii user, [], []⟩, ⟨1, 0, 0, 0⟩⟩,
    ⟨⟨0, 0, 0, 0⟩, false⟩⟩

def readerPool : Pool := ⟨1, ascii "r:1", ⟨ascii "a", [], []⟩, ⟨1, 0, 0, 0⟩⟩

def Leaked (g : DatabaseGroup) (p : Pool) : Prop := p ∈ g.made ∧ p ∉ g.closed ∧ ¬ Current g p

theorem reload_leaks :
    Leaked (after (config "a" ["r"]) [config "b" ["r"]]) readerPool ∧
    Leaked (after (config "a" ["r", "r"]) []) readerPool := by
  have hsound (cfg reloads) : Sound (after cfg reloads) :=
    sound_reloads reloads (sound_new cfg.1 cfg.2)
  simp only [Leaked, current_iff (hsound _ _)]
  decide

end PgMux.PoolLeaks
