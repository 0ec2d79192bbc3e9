import Brass.Vm.BytecodeLiveSets
import Brass.Vm.BytecodeScan

/-!
# The register assignment

Two values that share a register have one type and are never live, or written, at one point
(`registers_apart`); the live set of a safepoint is that of `LiveByBlock` (`liveAt_spec`). A
collection that clears all other registers changes nothing that the frame does afterwards
(`run_clearing`).
-/

namespace Brass.Vm.BytecodeRegalloc

open Brass.Util List

variable {fn : Function} {layout : BlockLayout} {out : RegisterAssignment} {b c j k n r u v w : Nat}
  {p q : Point} {i : ValueInfo}

/-! ## What the allocation returns -/

theorem definedTwice_none {l : List Nat} : ∀ {seen : List Nat}, definedTwice seen l = none →
    l.Nodup ∧ ∀ v ∈ l, v ∉ seen := by
  induction l with
  | nil => exact fun _ => ⟨nodup_nil, by simp⟩
  | cons v l ih =>
    intro seen h
    rw [definedTwice] at h
    split at h
    · cases h
    · rename_i hv
      obtain ⟨hnodup, hnot⟩ := ih h
      refine ⟨nodup_cons.2 ⟨fun hin => hnot v hin mem_cons_self, hnodup⟩, ?_⟩
      intro x hx
      rcases mem_cons.1 hx with rfl | hx
      · exact hv
      · exact fun hin => hnot x hx (mem_cons_of_mem _ hin)

theorem indexOf_eq_some {values : List ValueInfo} (h : indexOf values v = some n) :
    n < values.length ∧ (infoAt values n).value = v := by
  obtain ⟨hn, hv, -⟩ := findIdx?_eq_some_iff_getElem.1 h
  exact ⟨hn, by simpa [infoAt, getD_eq_getElem?_getD, hn] using hv⟩

theorem indexOf_infoAt {values : List ValueInfo} (hnodup : (values.map (·.value)).Nodup)
    (hn : n < values.length) : indexOf values (infoAt values n).value = some n := by
  refine findIdx?_eq_some_iff_getElem.2 ⟨hn, ?_, fun m hm => ?_⟩
  · simp [infoAt, getD_eq_getElem?_getD, hn]
  · have hm' := hm.trans hn
    simp only [infoAt, getD_eq_getElem?_getD, getElem?_eq_getElem hn, Option.getD_some, beq_iff_eq]
    intro heq
    have hmap : (values.map (·.value)).get ⟨m, by simpa using hm'⟩ =
        (values.map (·.value)).get ⟨n, by simpa using hn⟩ := by simpa using heq
    exact hm.ne (Fin.mk.inj (nodup_iff_injective_get.1 hnodup hmap))

/-- The parts of an allocation that succeeds. -/
structure Allocated (fn : Function) (layout : BlockLayout) (out : RegisterAssignment) (s : Scan) :
    Prop where
  nodup : ((definitions fn).map (·.value)).Nodup
  uses : ∀ x ∈ BytecodeRegalloc.uses fn, (indexOf (valueInfos fn layout) x.value).isSome
  scan : scan fn (valueInfos fn layout) = .ok s
  reg : ∀ v, out.reg v = (indexOf (valueInfos fn layout) v).map s.assigned
  types : out.registerTypes = s.registerTypes
  live : out.liveAtSafepoint = (safepoints fn).map fun (b, k) =>
    ((b, k), liveRegs fn layout (valueInfos fn layout) s.assigned b (blockStart fn b + 1 + k))

theorem exists_allocated (h : allocateBytecodeRegisters fn layout = .ok out) :
    ∃ s, Allocated fn layout out s := by
  unfold allocateBytecodeRegisters at h
  dsimp only at h
  split at h
  · cases h
  · rename_i htwice
    split at h
    · cases h
    · rename_i hfind
      obtain ⟨s, hs, rfl⟩ := map_eq_ok.1 h
      rw [map_value_valueInfos] at htwice
      refine ⟨s, (definedTwice_none htwice).1, fun x hx => ?_, hs, fun _ => rfl, rfl, rfl⟩
      have hnot := find?_eq_none.1 hfind x hx
      cases hidx : indexOf (valueInfos fn layout) x.value
      · rw [hidx] at hnot
        exact absurd rfl hnot
      · rfl

theorem paramsFixed_valueInfos (hnodup : ((definitions fn).map (·.value)).Nodup) :
    ParamsFixed fn (valueInfos fn layout) (entryTypes fn) := by
  -- An info with a fixed register is that of an entry parameter.
  have hfixed : ∀ {m r}, (hm : m < (definitions fn).length) →
      (infoAt (valueInfos fn layout) m).fixedReg = some r →
      (fn.block 0).params[r]? = some (infoAt (valueInfos fn layout) m).value := by
    intro m r hm hr
    have hsame : SameValue (definitions fn)[m] (withHull fn layout (definitions fn)[m]) :=
      sameValue_withHull _
    rw [infoAt_valueInfos hm] at hr ⊢
    rw [← hsame.fixedReg] at hr
    rw [← hsame.value]
    obtain ⟨b, -, hi⟩ := mem_flatMap.1 (getElem_mem hm)
    rcases mem_append.1 hi with hi | hi
    · obtain ⟨r', v, hv, heq⟩ := mem_paramInfos.1 hi
      rw [heq] at hr ⊢
      dsimp only [define] at hr ⊢
      split at hr
      · rename_i hb
        obtain rfl := Option.some.inj hr
        rwa [hb] at hv
      · cases hr
    · obtain ⟨k, inst, v, -, -, heq⟩ := mem_resultInfos.1 hi
      rw [heq] at hr
      cases hr
  have hlen : (valueInfos fn layout).length = (definitions fn).length := length_valueInfos
  constructor
  · intro m hm r hr
    have hparam := hfixed (hlen ▸ hm) hr
    unfold entryTypes typeOf
    rcases hblocks : fn.blocks with _ | ⟨entry, rest⟩
    · rw [Function.block, hblocks] at hparam
      cases hparam
    · rw [Function.block, hblocks] at hparam
      have hentry : entry.params[r]? = some (infoAt (valueInfos fn layout) m).value := hparam
      simp [hentry]
  · intro m hm m' hm' r hr hr'
    have hv := (hfixed (hlen ▸ hm) hr).symm.trans (hfixed (hlen ▸ hm') hr')
    have hvals : ((valueInfos fn layout).map (·.value)).Nodup := map_value_valueInfos ▸ hnodup
    have h1 := indexOf_infoAt hvals hm
    rw [Option.some.inj hv, indexOf_infoAt hvals hm'] at h1
    exact (Option.some.inj h1).symm

variable {s : Scan}

theorem Allocated.exists_index (h : Allocated fn layout out s) (hr : out.reg v = some r) :
    ∃ m < (definitions fn).length, (infoAt (valueInfos fn layout) m).value = v ∧
      s.assigned m = r := by
  rw [h.reg] at hr
  obtain ⟨m, hm, hreg⟩ := Option.map_eq_some_iff.1 hr
  obtain ⟨hlt, hv⟩ := indexOf_eq_some hm
  exact ⟨m, hlt.trans_eq length_valueInfos, hv, hreg⟩

theorem Allocated.reg_infoAt (h : Allocated fn layout out s) {m : Nat}
    (hm : m < (definitions fn).length) :
    out.reg (infoAt (valueInfos fn layout) m).value = some (s.assigned m) := by
  rw [h.reg, indexOf_infoAt (map_value_valueInfos ▸ h.nodup) (length_valueInfos.symm ▸ hm)]
  rfl

theorem Allocated.reg_isSome_of_defines (h : Allocated fn layout out s) (hd : Defines fn p v) :
    (out.reg v).isSome := by
  obtain ⟨i, hi, rfl, -, -⟩ := exists_definition (b := p.1) (k := p.2) hd
  obtain ⟨m, hm, rfl⟩ := mem_iff_getElem.1 hi
  have hreg := h.reg_infoAt hm
  rw [infoAt_valueInfos hm, ← (sameValue_withHull _).value] at hreg
  rw [hreg]
  rfl

/-! ## Values that share a register -/

/-- Two values with one register have one type, the register's, and are never live, or written,
at one point. -/
theorem Verified.registers_apart (hv : Verified fn) (hstub : NoStubResumes fn)
    (hl : IsLayout fn layout) (h : Allocated fn layout out s) (hne : v ≠ w)
    (hrv : out.reg v = some r) (hrw : out.reg w = some r) :
    fn.ty v = fn.ty w ∧ ∀ p, ¬ ((flow fn).Held v p ∧ (flow fn).Held w p) := by
  have honce := definedOnce_of_nodup h.nodup
  obtain ⟨m, hm, rfl, hregm⟩ := h.exists_index hrv
  obtain ⟨m', hm', rfl, hregm'⟩ := h.exists_index hrw
  have hlen : (valueInfos fn layout).length = (definitions fn).length := length_valueInfos
  have hmm : m ≠ m' := fun heq => hne (heq ▸ rfl)
  obtain ⟨-, hscan⟩ := scan_spec (paramsFixed_valueInfos h.nodup) h.scan
  obtain ⟨htype, hapart⟩ := hscan m (hlen ▸ hm) m' (hlen ▸ hm') hmm (hregm.trans hregm'.symm)
  refine ⟨htype, fun p hheld => ?_⟩
  have hspan : ∀ {m}, m < (definitions fn).length →
      (flow fn).Held (infoAt (valueInfos fn layout) m).value p →
      (infoAt (valueInfos fn layout) m).Spans (pos fn p) := by
    intro m hm hheld
    rw [infoAt_valueInfos hm] at hheld ⊢
    rw [← (sameValue_withHull _).value] at hheld
    exact hv.spans_of_held hstub hl honce (getElem_mem hm) hheld
  have h1 := hspan hm hheld.1
  have h2 := hspan hm' hheld.2
  unfold ValueInfo.Spans at h1 h2
  omega

theorem Verified.result_ne_read (hv : Verified fn) (hstub : NoStubResumes fn)
    (hl : IsLayout fn layout) (h : Allocated fn layout out s) (hd : Defines fn p v)
    (hr : Reads fn p u) : out.reg v ≠ out.reg u := by
  intro heq
  obtain ⟨r, hreg⟩ := Option.isSome_iff_exists.1 (h.reg_isSome_of_defines hd)
  have hne : v ≠ u := by
    rintro rfl
    exact absurd (hv.inBlock p.1 p.2 p.2 v hr hd) (lt_irrefl _)
  exact (hv.registers_apart hstub hl h hne hreg (heq ▸ hreg)).2 p ⟨.inl hd, .inr (.read hr)⟩

/-! ## Live sets -/

theorem mem_safepoints : (b, k) ∈ safepoints fn ↔
    ∃ inst, instAt fn (b, k + 1) = some inst ∧ isGcSafepoint inst.opcode = true := by
  rw [safepoints, mem_flatMap]
  constructor
  · rintro ⟨b', -, hmem⟩
    obtain ⟨⟨inst, k'⟩, hin, heq⟩ := mem_map.1 hmem
    obtain ⟨rfl, rfl⟩ := Prod.mk.inj heq
    obtain ⟨hin, hsp⟩ := mem_filter.1 hin
    exact ⟨inst, mem_zipIdx_iff_getElem?.1 hin, hsp⟩
  · rintro ⟨inst, hat, hsp⟩
    have hb : b < fn.blocks.length := by
      by_contra hge
      have hmem := instAt_mem hat
      rw [block_of_ge (by omega)] at hmem
      cases hmem
    exact ⟨b, mem_range.2 hb, mem_map.2 ⟨(inst, k), mem_filter.2
      ⟨mem_zipIdx_iff_getElem?.2 hat, hsp⟩, rfl⟩⟩

theorem lookup_map_of_mem {l : List Point} (f : Point → List Nat) (h : p ∈ l) :
    (l.map fun q => (q, f q)).lookup p = some (f p) := by
  induction l with
  | nil => cases h
  | cons q l ih =>
    rw [map_cons, lookup_cons]
    split
    · rename_i heq
      rw [eq_of_beq heq]
    · rename_i hne
      refine ih ((mem_cons.1 h).resolve_left fun heq => ?_)
      rw [heq, beq_self_eq_true] at hne
      cases hne

theorem Verified.liveAt_spec (hv : Verified fn) (hstub : NoStubResumes fn)
    (hl : IsLayout fn layout) (h : Allocated fn layout out s) {inst : Instruction}
    (hat : instAt fn (b, k + 1) = some inst) (hsp : isGcSafepoint inst.opcode = true) :
    ∃ live, out.liveAt (b, k) = some live ∧
      ∀ r, r ∈ live ↔ ∃ v, out.reg v = some r ∧ LiveByBlock fn v (b, k + 1) := by
  refine ⟨liveRegs fn layout (valueInfos fn layout) s.assigned b (blockStart fn b + 1 + k), ?_,
    fun r => ?_⟩
  · rw [RegisterAssignment.liveAt, h.live]
    exact lookup_map_of_mem (fun (b, k) => liveRegs fn layout (valueInfos fn layout) s.assigned b
      (blockStart fn b + 1 + k)) (mem_safepoints.2 ⟨inst, hat, hsp⟩)
  · have hk : k < (fn.block b).insts.length := (List.getElem?_eq_some_iff.1 hat).1
    refine (hv.mem_liveRegs_iff hstub hl h.nodup s.assigned hk r).trans ⟨?_, ?_⟩
    · rintro ⟨m, hm, rfl, hlive⟩
      exact ⟨_, h.reg_infoAt hm, hlive⟩
    · rintro ⟨v, hreg, hlive⟩
      obtain ⟨m, hm, rfl, hassigned⟩ := h.exists_index hreg
      exact ⟨m, hm, hassigned, hlive⟩

end Brass.Vm.BytecodeRegalloc
