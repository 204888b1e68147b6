import TensorAccel.Axi.Engines

/-! # Bursts and regions

    Every burst consists of rows of one of the three regions of its command.
    The bridge does not look at 4 KB boundaries, so that a burst crosses one
    wherever its rows do. -/

open Clocked Burst StreamCtrl

namespace DmaBridge

variable {N A : ℕ}

section region
variable {n : ℕ} {b : Req A}

/-- A burst of at most 16 rows whose first row is a multiple of 16. -/
theorem chunk_inBlock {region : Req A} (h : Req.RowsOf (rbytes N) region b n) (hshort : b.len ≤ 16)
    (hn : 16 ∣ n) (hN : 16 * N ∣ 4096) (hregion : 16 * N ∣ region.addr.toNat) :
    b.InBlock 4096 (rbytes N) := by
  rcases Nat.le_total A 12 with hA | hA
  · exact Req.inBlock_of_le (Nat.pow_le_pow_right (by omega) hA)
  · have hspace : 4096 ∣ 2 ^ A := Nat.pow_dvd_pow 2 hA
    refine Req.inBlock_of_dvd hN hspace ?_ (Nat.mul_le_mul_right N hshort)
    have hoff : 16 * N ∣ n * N := Nat.mul_dvd_mul_right hn N
    rw [h.addr, BitVec.toNat_add, BitVec.toNat_ofNat, Nat.add_mod_mod]
    exact (Nat.dvd_mod_iff (hN.trans hspace)).mpr (Nat.dvd_add hregion hoff)

end region

/-- **Where the bursts lie.**  In any cycle `t` of a run after a reset: a read
burst that is offered consists of at most 16 weight rows or at most 16 activation
rows of the command that runs, and begins at a row whose number is a multiple of
16.  It does not cross a 4 KB boundary if its region lies in one block, or begins at a
multiple of 16 rows and 16 rows divide 4096.  A write burst consists of result
rows, and crosses none if their region lies in one block. -/
theorem bursts_in_regions (d : Depths) (hN : N < 2 ^ 31) (p : Sys N A) (i : ℕ → DmaIn N A) {r : ℕ}
    (hr : (i r).rst = true) (t : ℕ) (hrt : r < t) (hrun : ∀ u, r < u → u < t → (i u).rst = false)
    (hlegal : ∀ u, r < u → u < t → (run (Sys.step d) p i u).Legal (i u)) :
    ((run (Sys.step d) p i t).dma.rd.arvalid = true →
      ∃ a, r < a ∧ a < t ∧ Accepts d p i a ∧ BusyBetween d p i a (t + 1) ∧
        ∃ region ∈ [weightRegion N (i a).cmd, actRegion (i a).cmd],
          (∃ n, 16 ∣ n ∧
            Req.RowsOf (rbytes N) region (run (Sys.step d) p i t).dma.rd.arBurst n) ∧
          (run (Sys.step d) p i t).dma.rd.arBurst.len ≤ 16 ∧
          (region.InBlock 4096 (rbytes N) ∨ 16 * N ∣ 4096 ∧ 16 * N ∣ region.addr.toNat →
            (run (Sys.step d) p i t).dma.rd.arBurst.InBlock 4096 (rbytes N))) ∧
    ((run (Sys.step d) p i t).dma.wr.awvalid = true →
      ∃ a, r < a ∧ a < t ∧ Accepts d p i a ∧ BusyBetween d p i a (t + 1) ∧
        (∃ n, Req.RowsOf (wbytes N) (resultRegion (i a).cmd)
          (run (Sys.step d) p i t).dma.wr.awBurst n) ∧
        (run (Sys.step d) p i t).dma.wr.awBurst.len ≤ 16 ∧
        ((resultRegion (i a).cmd).InBlock 4096 (wbytes N) →
          (run (Sys.step d) p i t).dma.wr.awBurst.InBlock 4096 (wbytes N))) := by
  obtain ⟨c, hports, hcmd⟩ := ports_run hN hr hrt hrun hlegal
  constructor
  · intro hv
    cases hports.reading with
    | ar hst _ hp hb hend =>
      -- an offered address comes from a command, which is the one latched
      have hbusy := hports.busy_of_fetching (by rw [hst]; simp)
      obtain ⟨a, hra, hat, hacc, hbetween, rfl⟩ := hcmd hbusy
      obtain ⟨region, hmem, n, hn, hrows⟩ := hb.rowsOf
      refine ⟨a, hra, hat, hacc, hbetween, region, hmem, ⟨n, hn, hrows⟩, hb.short, ?_⟩
      intro hplace
      rcases hplace with hregion | ⟨hdvd, haddr⟩
      · exact hrows.inBlock hregion
      · exact chunk_inBlock hrows hb.short hn hdvd haddr
    | rest _ _ hv' => rw [hv'] at hv; cases hv
    | data _ _ _ _ hv' => rw [hv'] at hv; cases hv
  · intro hv
    cases hports.sending with
    | aw hst _ _ _ _ _ hlen h16 _ haddr hle =>
      have hbusy := hports.busy_of_sending (by rw [hst]; simp)
      -- the rows issued and those of this burst are within the rows of the command
      rw [(hports.latched hbusy).2, hlen] at hle
      rw [hlen] at h16
      obtain ⟨a, hra, hat, hacc, hbetween, rfl⟩ := hcmd hbusy
      have hrows : Req.RowsOf (wbytes N) (resultRegion (i a).cmd)
          (run (Sys.step d) p i t).dma.wr.awBurst (run (Sys.step d) p i t).dma.wr.wrIssued.toNat :=
        ⟨Nat.succ_pos _, hle, haddr⟩
      exact ⟨a, hra, hat, hacc, hbetween, ⟨_, hrows⟩, h16, fun hregion => hrows.inBlock hregion⟩
    | idle _ hv' => rw [hv'] at hv; cases hv
    | data _ _ _ hv' => rw [hv'] at hv; cases hv
    | bresp _ hv' => rw [hv'] at hv; cases hv

/-- The first command of `pairIn` reads its three activation rows, the bytes 4090 to
4095, in one burst. -/
theorem bursts_in_regions_demo :
    (run (Sys.step pairDepths) (zeroSys 2 16) pairIn 10).dma.rd.arBurst = ⟨4090, 3⟩ ∧
      (run (Sys.step pairDepths) (zeroSys 2 16) pairIn 10).dma.rd.arBurst.InBlock 4096 2 := by
  have hv : (run (Sys.step pairDepths) (zeroSys 2 16) pairIn 10).dma.rd.arvalid = true := by decide +kernel
  have hrst : ∀ u < 10, 0 < u → (pairIn u).rst = false := by decide
  have hlegal : ∀ u < 10, 0 < u → (run (Sys.step pairDepths) (zeroSys 2 16) pairIn u).Legal (pairIn u) := by
    decide +kernel
  have hstart : ∀ u < 10, Accepts pairDepths (zeroSys 2 16) pairIn u → u = 1 := by
    intro u hu hacc
    have honly : ∀ u < 10, (pairIn u).start = true → u = 1 := by decide
    exact honly u hu hacc.1
  have hmain := bursts_in_regions pairDepths (by decide) (zeroSys 2 16) pairIn rfl 10 (by decide)
    (fun u hu hut => hrst u hut hu) fun u hu hut => hlegal u hut hu
  obtain ⟨a, -, hat, hacc, -, region, hmem, -, -, hblock⟩ := hmain.1 hv
  obtain rfl := hstart a hat hacc
  refine ⟨by decide +kernel, hblock (.inl ?_)⟩
  -- the weights lie in the first four bytes
  simp only [weightRegion, actRegion, pairIn, List.mem_cons, List.not_mem_nil, or_false] at hmem
  rcases hmem with rfl | rfl
  · exact (by decide : ∀ k < 4, (0#16 + BitVec.ofNat 16 k).toNat / 4096 = 0)
  · exact (by decide : ∀ k < 6, (4090#16 + BitVec.ofNat 16 k).toNat / 4096 = 0)

/-- A reset, then one command of two rows with its activations at byte 4095. -/
def edgeIn (t : ℕ) : DmaIn 1 16 where
  rst := t == 0
  start := t == 1
  cmd := ⟨0, 4095, 64, 2⟩
  arready := true
  rdata := fun _ => 3
  rlast := true
  rvalid := t == 4
  awready := true
  wready := true
  bvalid := false

/-- The two activation rows are asked for in one burst, across a 4 KB boundary. -/
theorem burst_crosses :
    (edgeIn 0).rst = true ∧ (∀ u, 0 < u → (edgeIn u).rst = false) ∧
      (∀ u < 6, 0 < u → (run (Sys.step demoDepths) (zeroSys 1 16) edgeIn u).Legal (edgeIn u)) ∧
      Accepts demoDepths (zeroSys 1 16) edgeIn 1 ∧
      (run (Sys.step demoDepths) (zeroSys 1 16) edgeIn 6).dma.rd.arvalid = true ∧
      (run (Sys.step demoDepths) (zeroSys 1 16) edgeIn 6).dma.rd.arBurst = ⟨4095, 2⟩ ∧
      ¬ (run (Sys.step demoDepths) (zeroSys 1 16) edgeIn 6).dma.rd.arBurst.InBlock 4096 (rbytes 1) := by
  have hburst : (run (Sys.step demoDepths) (zeroSys 1 16) edgeIn 6).dma.rd.arBurst = ⟨4095, 2⟩ := by
    decide +kernel
  refine ⟨rfl, fun u hu => by simp [edgeIn]; omega, by decide +kernel, ⟨rfl, by decide +kernel⟩,
    by decide +kernel, hburst, ?_⟩
  intro hblock
  rw [hburst] at hblock
  exact absurd (hblock 1 (by decide)) (by decide)

end DmaBridge
