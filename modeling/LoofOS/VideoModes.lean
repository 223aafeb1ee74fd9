import LoofOS.Bios

/-!
# The Choice of a Video Mode

`init_vbe` of `boot/x86/vesa/vbe.c` looks for a video mode in the list that the controller block
points to. The BIOS writes this pointer as a far pointer, the segment in the high half and the
offset in the low one; the code uses the 32 bits as an address.

`VbeBios` is a BIOS together with what it publishes: the list of modes, somewhere in memory, and
the information block of every mode. Memory is what it is after the first call. The blocks that
the calls fill are on the stack of the boot loader or among its data, below 64 KiB, where
real-mode code can reach them; they are apart from memory.

## Main results

* `selectsFrom_nil`, `selectsFrom_cons`: one round of the search.
* `selectsMode_iff`: the right mode is found if and only if the words at the pointer, taken as an
  address, are those of the list, up to the first mode that qualifies or the end.
* `selectsMode_of_segment_zero`: so it is for pointers with segment 0.
-/

namespace LoofOS

/-! ### `vbe.c` -/

/-- The addresses of `vbe_cib`, `video_mode_info` and `crtc`. -/
structure VbeBuffers where
  vbeCib : ℕ
  videoModeInfo : ℕ
  crtc : ℕ

/-- `vbe_cib.video_mode_ptr`. -/
def videoModePtr (cib : Mem) : ℕ := cib.read32 14

/-- Word `i` of an array at `a`. -/
def wordOf (m : Mem) (a i : ℕ) : ℕ :=
  (m (wrap32 (a + 2 * i))).toNat + 2 ^ 8 * (m (wrap32 (a + 2 * i + 1))).toNat

/-- `mode_attributes` of an information block. -/
def modeAttributes (info : Mem) : ℕ := info.read16 0

/-- `xresolution`. -/
def xresolution (info : Mem) : ℕ := info.read16 18

/-- `bits_per_pixel`. -/
def bitsPerPixel (info : Mem) : ℕ := (info 25).toNat

namespace Loader

/-- The state of the loop of `init_vbe`. -/
structure VbeState where
  i : ℕ
  registers : BiosRegisters

/-- One round of this loop. -/
def vbeBody (u : VbeBuffers) (m : Mem) (ptr : ℕ) (s : VbeState) : Loader (VbeState ⊕ Unit) :=
  if wordOf m ptr s.i ≠ 0xffff then do
    let registers := { s.registers with
      eax := 0x4f01
      ecx := wordOf m ptr s.i
      edi := u.videoModeInfo }
    let info ← biosInt registers 0x10 .none
    if modeAttributes info.buffer / 2 ^ 7 % 2 = 1 then
      if xresolution info.buffer = 1280 then
        if bitsPerPixel info.buffer = 24 then do
          let _ ← biosInt { registers with
            eax := 0x4f02
            ebx := wordOf m ptr s.i
            edi := u.crtc } 0x10 .none
          pure (Sum.inr ())
        else pure (Sum.inl ⟨s.i + 1, registers⟩)
      else pure (Sum.inl ⟨s.i + 1, registers⟩)
    else pure (Sum.inl ⟨s.i + 1, registers⟩)
  else pure (Sum.inr ())

/-- `init_vbe`; the search runs at most `fuel` rounds. -/
def initVbe (u : VbeBuffers) (m : Mem) (fuel : ℕ) : Loader Unit := do
  let registers := ⟨0x4f00, 0, 0, 0, 0, u.vbeCib⟩
  let cib ← biosInt registers 0x10 (.controller ['V', 'B', 'E', '2'] 0x300)
  Dialogue.loop (vbeBody u m (videoModePtr cib.buffer)) fuel ⟨0, registers⟩

end Loader

/-! ### What the BIOS publishes -/

/-- The linear address that a far pointer names. -/
def farAddress (cib : Mem) : ℕ := 16 * cib.read16 16 + cib.read16 14

/-- A mode with a linear frame buffer, 1280 pixels wide with 24 bits each. -/
def Qualifies (info : Mem) : Prop :=
  modeAttributes info / 2 ^ 7 % 2 = 1 ∧ xresolution info = 1280 ∧ bitsPerPixel info = 24

instance (info : Mem) : Decidable (Qualifies info) :=
  inferInstanceAs (Decidable (_ ∧ _ ∧ _))

/-- A BIOS, memory with a list of video modes that its controller block points to, and the
information block of every mode. -/
structure VbeBios (σ : Type) where
  env : σ → LoaderOp → BiosReply × σ
  mem : Mem
  cib : Mem
  modes : List ℕ
  modeInfo : ℕ → Mem
  fillsCib : ∀ s registers version, registers.eax = 0x4f00 → ∀ j < 512,
    (env s (.biosInt ⟨0x10, registers, .controller ['V', 'B', 'E', '2'] version⟩)).1.buffer j
      = cib j
  fillsInfo : ∀ s registers, registers.eax = 0x4f01 → ∀ j < 256,
    (env s (.biosInt ⟨0x10, registers, .none⟩)).1.buffer j = modeInfo registers.ecx j
  listed : ∀ i ≤ modes.length, wordOf mem (farAddress cib) i = modes.getD i 0xffff
  nonterminal : ∀ x ∈ modes, x ≠ 0xffff

/-- The mode whose information a call asks for. -/
def infoRequest : LoaderOp → Option ℕ
  | .biosInt call =>
      if call.code = 0x10 ∧ call.registers.eax = 0x4f01 then some call.registers.ecx else none
  | .enablePaging _ => none

/-- The mode that a call sets. -/
def modeSet : LoaderOp → Option ℕ
  | .biosInt call =>
      if call.code = 0x10 ∧ call.registers.eax = 0x4f02 then some call.registers.ebx else none
  | .enablePaging _ => none

/-- The modes whose information was asked for, in order. -/
def requested (said : List (LoaderOp × BiosReply)) : List ℕ :=
  said.filterMap fun e => infoRequest e.1

/-- The modes that were set, in order. -/
def chosen (said : List (LoaderOp × BiosReply)) : List ℕ :=
  said.filterMap fun e => modeSet e.1

namespace VbeBios

variable {σ : Type}

/-- The mode has the properties that the boot loader looks for. -/
def qualifies (b : VbeBios σ) (mode : ℕ) : Bool := decide (Qualifies (b.modeInfo mode))

/-- `init_vbe` returns. It asks for the information of the modes of the list up to the first one
that qualifies, in this order, and sets this one, or none where none qualifies. -/
def SelectsMode (b : VbeBios σ) (u : VbeBuffers) (s : σ) : Prop :=
  ∃ fuel, ((Loader.initVbe u b.mem fuel).run b.env s).result = some () ∧
    requested ((Loader.initVbe u b.mem fuel).run b.env s).said
      = b.modes.take (b.modes.findIdx b.qualifies + 1) ∧
    chosen ((Loader.initVbe u b.mem fuel).run b.env s).said = (b.modes.find? b.qualifies).toList

/-! ### One round of the search -/

/-- Whether a mode qualifies is read from its 256 bytes. -/
theorem qualifies_congr {info info' : Mem} (h : ∀ j < 256, info j = info' j) :
    Qualifies info ↔ Qualifies info' := by
  have h0 : info 0 = info' 0 := h 0 (by simp)
  have h1 : info 1 = info' 1 := h 1 (by simp)
  have h18 : info 18 = info' 18 := h 18 (by simp)
  have h19 : info 19 = info' 19 := h 19 (by simp)
  have h25 : info 25 = info' 25 := h 25 (by simp)
  simp only [Qualifies, modeAttributes, xresolution, bitsPerPixel, Mem.read16, h0, h1, h18, h19,
    h25]

variable {b : VbeBios σ} {u : VbeBuffers} {ptr : ℕ} {t : Loader.VbeState} {s : σ}

/-- The registers with which the information of mode `w` is asked for. -/
def infoRegisters (u : VbeBuffers) (registers : BiosRegisters) (w : ℕ) : BiosRegisters :=
  { registers with eax := 0x4f01, ecx := w, edi := u.videoModeInfo }

/-- The call that asks for the information of mode `w`. -/
def infoCall (u : VbeBuffers) (registers : BiosRegisters) (w : ℕ) : LoaderOp :=
  .biosInt ⟨0x10, infoRegisters u registers w, .none⟩

/-- What the BIOS answers to it decides whether the mode qualifies. -/
theorem qualifies_infoCall (b : VbeBios σ) (u : VbeBuffers) (registers : BiosRegisters) (w : ℕ)
    (s : σ) : Qualifies (b.env s (infoCall u registers w)).1.buffer ↔ b.qualifies w = true := by
  rw [qualifies, decide_eq_true_eq]
  exact qualifies_congr (b.fillsInfo s _ rfl)

/-- The call that sets mode `w`. -/
def setCall (u : VbeBuffers) (registers : BiosRegisters) (w : ℕ) : LoaderOp :=
  .biosInt ⟨0x10, { infoRegisters u registers w with eax := 0x4f02, ebx := w, edi := u.crtc },
    .none⟩

/-- A round that finds an entry of the list. -/
theorem vbeBody_eq {m : Mem} (h : wordOf m ptr t.i ≠ 0xffff) :
    Loader.vbeBody u m ptr t
      = .ask (infoCall u t.registers (wordOf m ptr t.i)) fun info =>
          if Qualifies info.buffer then
            .ask (setCall u t.registers (wordOf m ptr t.i)) fun _ => .ret (Sum.inr ())
          else .ret (Sum.inl ⟨t.i + 1, infoRegisters u t.registers (wordOf m ptr t.i)⟩) := by
  rw [Loader.vbeBody, if_pos h]
  simp only [Loader.biosInt, Dialogue.bind_eq, Dialogue.ask_bind, Dialogue.ret_bind,
    Dialogue.pure_eq]
  refine congrArg _ (funext fun info => ?_)
  by_cases hlinear : modeAttributes info.buffer / 2 ^ 7 % 2 = 1
  · by_cases hwidth : xresolution info.buffer = 1280
    · by_cases hdepth : bitsPerPixel info.buffer = 24
      · have hall : Qualifies info.buffer := ⟨hlinear, hwidth, hdepth⟩
        rw [if_pos hlinear, if_pos hwidth, if_pos hdepth, if_pos hall]
        rfl
      · rw [if_pos hlinear, if_pos hwidth, if_neg hdepth, if_neg fun hall => hdepth hall.2.2]
        rfl
    · rw [if_pos hlinear, if_neg hwidth, if_neg fun hall => hwidth hall.2.1]
      rfl
  · rw [if_neg hlinear, if_neg fun hall => hlinear hall.1]
    rfl

/-- At the end of the list the search stops. -/
theorem run_vbeBody_end (h : wordOf b.mem ptr t.i = 0xffff) :
    (Loader.vbeBody u b.mem ptr t).run b.env s = ⟨[], s, some (Sum.inr ())⟩ := by
  simp [Loader.vbeBody, h]

/-- A mode that does not qualify is passed over, after one call. -/
theorem run_vbeBody_miss (h : wordOf b.mem ptr t.i ≠ 0xffff)
    (hq : b.qualifies (wordOf b.mem ptr t.i) = false) :
    (Loader.vbeBody u b.mem ptr t).run b.env s
      = ⟨[(infoCall u t.registers (wordOf b.mem ptr t.i),
            (b.env s (infoCall u t.registers (wordOf b.mem ptr t.i))).1)],
          (b.env s (infoCall u t.registers (wordOf b.mem ptr t.i))).2,
          some (Sum.inl ⟨t.i + 1, infoRegisters u t.registers (wordOf b.mem ptr t.i)⟩)⟩ := by
  have hnot : ¬ Qualifies (b.env s (infoCall u t.registers (wordOf b.mem ptr t.i))).1.buffer := by
    rw [qualifies_infoCall, hq]
    exact Bool.false_ne_true
  rw [vbeBody_eq h, Dialogue.run_ask, if_neg hnot]
  rfl

/-- A mode that qualifies is set. -/
theorem run_vbeBody_hit (h : wordOf b.mem ptr t.i ≠ 0xffff)
    (hq : b.qualifies (wordOf b.mem ptr t.i) = true) :
    ∃ reply s', (Loader.vbeBody u b.mem ptr t).run b.env s
      = ⟨[(infoCall u t.registers (wordOf b.mem ptr t.i),
            (b.env s (infoCall u t.registers (wordOf b.mem ptr t.i))).1),
            (setCall u t.registers (wordOf b.mem ptr t.i), reply)],
          s', some (Sum.inr ())⟩ := by
  have hyes := (qualifies_infoCall b u t.registers (wordOf b.mem ptr t.i) s).mpr hq
  rw [vbeBody_eq h, Dialogue.run_ask, if_pos hyes]
  exact ⟨_, _, rfl⟩

/-! ### The whole search -/

/-- The information call asks for its mode. -/
@[simp] theorem infoRequest_infoCall (u : VbeBuffers) (registers : BiosRegisters) (w : ℕ) :
    infoRequest (infoCall u registers w) = some w := by
  simp [infoRequest, infoCall, infoRegisters]

/-- The information call sets no mode. -/
@[simp] theorem modeSet_infoCall (u : VbeBuffers) (registers : BiosRegisters) (w : ℕ) :
    modeSet (infoCall u registers w) = none := by
  simp [modeSet, infoCall, infoRegisters]

/-- The setting call asks for no mode. -/
@[simp] theorem infoRequest_setCall (u : VbeBuffers) (registers : BiosRegisters) (w : ℕ) :
    infoRequest (setCall u registers w) = none := by
  simp [infoRequest, setCall]

/-- The setting call sets its mode. -/
@[simp] theorem modeSet_setCall (u : VbeBuffers) (registers : BiosRegisters) (w : ℕ) :
    modeSet (setCall u registers w) = some w := by
  simp [modeSet, setCall]

/-- The loop, in state `t`, selects from the modes `modes`. -/
def SelectsFrom (b : VbeBios σ) (u : VbeBuffers) (ptr : ℕ) (t : Loader.VbeState) (modes : List ℕ)
    (s : σ) : Prop :=
  ∃ fuel, ((Dialogue.loop (Loader.vbeBody u b.mem ptr) fuel t).run b.env s).result = some () ∧
    requested ((Dialogue.loop (Loader.vbeBody u b.mem ptr) fuel t).run b.env s).said
      = modes.take (modes.findIdx b.qualifies + 1) ∧
    chosen ((Dialogue.loop (Loader.vbeBody u b.mem ptr) fuel t).run b.env s).said
      = (modes.find? b.qualifies).toList

variable {modes : List ℕ} {x : ℕ}

/-- A record with a first round. -/
theorem selectsFrom_iff_succ : SelectsFrom b u ptr t modes s ↔
    ∃ fuel, ((Dialogue.loop (Loader.vbeBody u b.mem ptr) (fuel + 1) t).run b.env s).result
        = some () ∧
      requested ((Dialogue.loop (Loader.vbeBody u b.mem ptr) (fuel + 1) t).run b.env s).said
        = modes.take (modes.findIdx b.qualifies + 1) ∧
      chosen ((Dialogue.loop (Loader.vbeBody u b.mem ptr) (fuel + 1) t).run b.env s).said
        = (modes.find? b.qualifies).toList := by
  constructor
  · rintro ⟨_ | fuel, h⟩
    · cases h.1
    · exact ⟨fuel, h⟩
  · rintro ⟨fuel, h⟩
    exact ⟨fuel + 1, h⟩

/-- The end of the list is found at once if and only if there are no modes. -/
theorem selectsFrom_of_end (h : wordOf b.mem ptr t.i = 0xffff) :
    SelectsFrom b u ptr t modes s ↔ modes = [] := by
  rw [selectsFrom_iff_succ]
  have hround := run_vbeBody_end (u := u) (s := s) h
  simp only [Dialogue.run_loop_of_inr (congrArg Dialogue.Record.result hround), hround]
  constructor
  · rintro ⟨-, -, htake, -⟩
    cases modes with
    | nil => rfl
    | cons y ys => cases htake
  · rintro rfl
    exact ⟨0, trivial, rfl, rfl⟩

/-- An entry that qualifies ends the search. -/
theorem selectsFrom_of_hit (h : wordOf b.mem ptr t.i ≠ 0xffff)
    (hq : b.qualifies (wordOf b.mem ptr t.i) = true) :
    SelectsFrom b u ptr t modes s ↔ ∃ rest, modes = wordOf b.mem ptr t.i :: rest := by
  rw [selectsFrom_iff_succ]
  obtain ⟨reply, s', hround⟩ := run_vbeBody_hit (u := u) (s := s) h hq
  simp only [Dialogue.run_loop_of_inr (congrArg Dialogue.Record.result hround), hround]
  simp only [requested, chosen, List.filterMap_cons, List.filterMap_nil, infoRequest_infoCall,
    modeSet_infoCall, infoRequest_setCall, modeSet_setCall]
  constructor
  · rintro ⟨-, -, htake, -⟩
    cases modes with
    | nil => cases htake
    | cons y ys => exact ⟨ys, by rw [(List.cons.inj htake).1]⟩
  · rintro ⟨rest, rfl⟩
    exact ⟨0, trivial, by simp [List.findIdx_cons, hq], by simp [hq]⟩

/-- Behind another entry the search goes on. -/
theorem selectsFrom_of_miss (h : wordOf b.mem ptr t.i ≠ 0xffff)
    (hq : b.qualifies (wordOf b.mem ptr t.i) = false) :
    SelectsFrom b u ptr t modes s ↔ ∃ rest, modes = wordOf b.mem ptr t.i :: rest ∧
      SelectsFrom b u ptr ⟨t.i + 1, infoRegisters u t.registers (wordOf b.mem ptr t.i)⟩ rest
        (b.env s (infoCall u t.registers (wordOf b.mem ptr t.i))).2 := by
  rw [selectsFrom_iff_succ]
  have hround := run_vbeBody_miss (u := u) (s := s) h hq
  simp only [Dialogue.run_loop_of_inl (congrArg Dialogue.Record.result hround), hround]
  simp only [requested, chosen, List.cons_append, List.nil_append, List.filterMap_cons,
    infoRequest_infoCall, modeSet_infoCall]
  constructor
  · rintro ⟨fuel, hresult, htake, hfind⟩
    cases modes with
    | nil => cases htake
    | cons y ys =>
        rw [List.take_succ_cons] at htake
        obtain ⟨rfl, htail⟩ := List.cons.inj htake
        rw [List.findIdx_cons, hq] at htail
        rw [List.find?_cons, hq] at hfind
        exact ⟨ys, rfl, fuel, hresult, htail, hfind⟩
  · rintro ⟨rest, rfl, fuel, hresult, htake, hfind⟩
    refine ⟨fuel, hresult, ?_, ?_⟩
    · rw [List.take_succ_cons, List.findIdx_cons, hq]
      exact congrArg _ htake
    · rw [List.find?_cons, hq]
      exact hfind

/-- The first word is that of the list. -/
theorem SelectsFrom.first_word (h : SelectsFrom b u ptr t modes s) :
    wordOf b.mem ptr t.i = modes.getD 0 0xffff := by
  by_cases hend : wordOf b.mem ptr t.i = 0xffff
  · rw [(selectsFrom_of_end hend).mp h, hend]
    rfl
  cases hq : b.qualifies (wordOf b.mem ptr t.i) with
  | true =>
      obtain ⟨rest, rfl⟩ := (selectsFrom_of_hit hend hq).mp h
      rfl
  | false =>
      obtain ⟨rest, rfl, -⟩ := (selectsFrom_of_miss hend hq).mp h
      rfl

/-- **The search in full**: it selects from a list if and only if its words are read, up to the
first mode that qualifies or the end. -/
theorem selectsFrom_iff (hmodes : ∀ x ∈ modes, x ≠ 0xffff) :
    SelectsFrom b u ptr t modes s ↔
      ∀ k ≤ modes.findIdx b.qualifies, wordOf b.mem ptr (t.i + k) = modes.getD k 0xffff := by
  induction modes generalizing t s with
  | nil =>
      constructor
      · intro hsel k hk
        obtain rfl : k = 0 := Nat.le_zero.mp hk
        exact hsel.first_word
      · intro hall
        exact (selectsFrom_of_end (hall 0 (le_refl 0))).mpr rfl
  | cons x modes ih =>
      have hx : x ≠ 0xffff := hmodes x List.mem_cons_self
      by_cases hword : wordOf b.mem ptr t.i = x
      · have hne : wordOf b.mem ptr t.i ≠ 0xffff := by rwa [hword]
        cases hq : b.qualifies x with
        | true =>
            refine iff_of_true ((selectsFrom_of_hit hne (hword ▸ hq)).mpr ⟨modes, by rw [hword]⟩) ?_
            intro k hk
            rw [List.findIdx_cons, hq] at hk
            obtain rfl : k = 0 := Nat.le_zero.mp hk
            exact hword
        | false =>
            rw [selectsFrom_of_miss hne (hword ▸ hq), List.findIdx_cons, hq]
            have hrest : ∀ x ∈ modes, x ≠ 0xffff := fun y hy =>
              hmodes y (List.mem_cons_of_mem _ hy)
            constructor
            · rintro ⟨rest, he, hsel⟩ k hk
              obtain rfl : modes = rest := (List.cons.inj he).2
              cases k with
              | zero => exact hword
              | succ k =>
                  have hrec := (ih hrest).mp hsel k (Nat.le_of_succ_le_succ hk)
                  rwa [Nat.add_assoc, Nat.add_comm 1 k] at hrec
            · intro hall
              refine ⟨modes, by rw [hword], (ih hrest).mpr fun k hk => ?_⟩
              have hnext := hall (k + 1) (Nat.succ_le_succ hk)
              rwa [← Nat.add_assoc, Nat.add_right_comm] at hnext
      · exact iff_of_false (fun hsel => hword hsel.first_word)
          fun hall => hword (hall 0 (Nat.zero_le _))

/-- The call for the controller block, in front of the search. -/
theorem selectsMode_iff_selectsFrom (b : VbeBios σ) (u : VbeBuffers) (s : σ) :
    b.SelectsMode u s ↔
      SelectsFrom b u (videoModePtr b.cib) ⟨0, ⟨0x4f00, 0, 0, 0, 0, u.vbeCib⟩⟩ b.modes
        (b.env s (.biosInt ⟨0x10, ⟨0x4f00, 0, 0, 0, 0, u.vbeCib⟩,
          .controller ['V', 'B', 'E', '2'] 0x300⟩)).2 := by
  have hptr : videoModePtr (b.env s (.biosInt ⟨0x10, ⟨0x4f00, 0, 0, 0, 0, u.vbeCib⟩,
      .controller ['V', 'B', 'E', '2'] 0x300⟩)).1.buffer = videoModePtr b.cib :=
    Mem.read32_copy fun j hj => b.fillsCib s _ _ rfl (14 + j) (by omega)
  simp only [SelectsMode, SelectsFrom, Loader.initVbe, Loader.biosInt, Dialogue.bind_eq,
    Dialogue.ask_bind, Dialogue.ret_bind, Dialogue.run_ask, hptr]
  rfl

/-- **The right mode is found** if and only if the words at the far pointer, taken as an address,
are those of the list, up to the first mode that qualifies or the end of the list. -/
theorem selectsMode_iff (b : VbeBios σ) (u : VbeBuffers) (s : σ) :
    b.SelectsMode u s ↔ ∀ k ≤ b.modes.findIdx b.qualifies,
      wordOf b.mem (videoModePtr b.cib) k = wordOf b.mem (farAddress b.cib) k := by
  rw [selectsMode_iff_selectsFrom, selectsFrom_iff b.nonterminal]
  refine forall₂_congr fun k hk => ?_
  rw [b.listed k (hk.trans List.findIdx_le_length), Nat.zero_add]

/-- With segment 0 the far pointer is the address. -/
theorem selectsMode_of_segment_zero (b : VbeBios σ) (h : b.cib.read16 16 = 0) (u : VbeBuffers)
    (s : σ) : b.SelectsMode u s := by
  rw [selectsMode_iff_selectsFrom, selectsFrom_iff b.nonterminal]
  intro k hk
  have hptr : videoModePtr b.cib = farAddress b.cib := by
    simp only [Mem.read16, Nat.reduceAdd] at h
    simp only [videoModePtr, farAddress, Mem.read32, Mem.read16, Nat.reduceAdd]
    omega
  rw [hptr, Nat.zero_add]
  exact b.listed k (hk.trans List.findIdx_le_length)

/-- A list of the modes `0x101` and `0x11b` at `0000:8022`, in the controller block itself. -/
def lowBytes : Mem := fun a =>
  if a = 0x8022 ∨ a = 0x8023 ∨ a = 0x8025 then 0x01
  else if a = 0x8024 then 0x1b
  else if a = 0x8026 ∨ a = 0x8027 then 0xff
  else 0

def lowPointer : Mem := fun j => if j = 14 then 0x22 else if j = 15 then 0x80 else 0

/-- Mode `0x11b` has 1280 pixels of 24 bits in a line, and a linear frame buffer. -/
def lowInfo (mode : ℕ) : Mem := fun j =>
  if mode = 0x11b then
    if j = 0 then 0x80 else if j = 19 then 5 else if j = 25 then 24 else 0
  else 0

theorem lowBytes_listed : ∀ i ≤ [0x101, 0x11b].length,
    wordOf lowBytes (farAddress lowPointer) i = [0x101, 0x11b].getD i 0xffff := by decide

/-- A BIOS with this list. -/
def lowBios : VbeBios Unit where
  env _ op :=
    match op with
    | .biosInt ⟨_, registers, .controller _ _⟩ => (⟨registers, lowPointer⟩, ())
    | .biosInt ⟨_, registers, _⟩ => (⟨registers, lowInfo registers.ecx⟩, ())
    | .enablePaging _ => (⟨⟨0, 0, 0, 0, 0, 0⟩, fun _ => 0⟩, ())
  mem := lowBytes
  cib := lowPointer
  modes := [0x101, 0x11b]
  modeInfo := lowInfo
  fillsCib _ _ _ _ _ _ := rfl
  fillsInfo _ _ _ _ _ := rfl
  listed := lowBytes_listed
  nonterminal := by decide

/-- Its second mode is set. -/
theorem selectsMode_lowBios :
    lowBios.SelectsMode ⟨0x8000, 0x7a00, 0x7900⟩ () ∧
      lowBios.modes.find? lowBios.qualifies = some 0x11b :=
  ⟨(selectsMode_iff lowBios _ ()).mpr (by decide), by decide⟩

/-- A ROM with the mode list `0x118`, `0xffff` at `c000:0000`. -/
def romBytes : Mem := fun a =>
  if a = 0xc0000 then 0x18
  else if a = 0xc0001 then 0x01
  else if a = 0xc0002 ∨ a = 0xc0003 then 0xff
  else 0

/-- A controller block that points to `c000:0000`. -/
def romPointer : Mem := fun j => if j = 17 then 0xc0 else 0

theorem romBytes_listed : ∀ i ≤ [0x118].length,
    wordOf romBytes (farAddress romPointer) i = [0x118].getD i 0xffff := by
  intro i hi
  rw [List.length_singleton] at hi
  obtain rfl | rfl : i = 0 ∨ i = 1 := by omega
  · decide
  · decide

/-- A BIOS with this list, whose only mode does not qualify. -/
def romBios : VbeBios Unit where
  env _ op :=
    match op with
    | .biosInt ⟨_, registers, .controller _ _⟩ => (⟨registers, romPointer⟩, ())
    | .biosInt ⟨_, registers, _⟩ => (⟨registers, fun _ => 0⟩, ())
    | .enablePaging _ => (⟨⟨0, 0, 0, 0, 0, 0⟩, fun _ => 0⟩, ())
  mem := romBytes
  cib := romPointer
  modes := [0x118]
  modeInfo _ _ := 0
  fillsCib _ _ _ _ _ _ := rfl
  fillsInfo _ _ _ _ _ := rfl
  listed := romBytes_listed
  nonterminal x hx := by
    rw [List.mem_singleton.mp hx]
    simp

/-- **A list outside segment 0** is looked for at `c0000000`. -/
theorem not_selectsMode : ¬ ∀ (σ : Type) (b : VbeBios σ) (u : VbeBuffers) (s : σ),
    b.SelectsMode u s := by
  intro hall
  have hsel := hall Unit romBios ⟨0x8000, 0x7a00, 0x7900⟩ ()
  rw [selectsMode_iff_selectsFrom, selectsFrom_iff romBios.nonterminal] at hsel
  exact absurd (hsel 0 (Nat.zero_le _)) (by decide)

end VbeBios

end LoofOS
