import Mp3Os.Args

/-!
# A line as command and arguments (`terminal_read`, `sys_getargs`)

A read cuts the line at its first space after the leading ones: the reader gets the command, and
`storeargs` keeps the rest for `sys_getargs`. Without a space the reader gets the line with its
newline.

`sys_getargs` copies as many bytes as the caller asks for. It does what its callers rely on, the
whole string or an error, exactly for the requests of `RoomOk`.
-/

namespace Mp3

/-- What a read of `n` bytes into `mem` gives: the bytes of `text` to the caller, `args` to
`storeargs`, and the line is used up. -/
structure Delivers (mem : Nat → UInt8) (n : Int) (text args : List UInt8) (r : SysResult) :
    Prop where
  ret : r.ret = min n text.length
  buf : ∀ i : Nat, r.buf i = if i < r.ret then text.getD i 0 else mem i
  stored : ∀ i : Fin 1024, r.state.storeargs i = args.getD i 0
  consumed : r.state.kbd.bufKb = Buf.zero
  flag : (r.state.terminals r.state.visible).enterFlag = 1

/-- The whole string `a`, or an error: what `sys_getargs` promises for `n` bytes. The last part
says that nothing behind the `args` array was read. -/
def WholeOrFails (s : Kernel) (a : List UInt8) (n : Int) : Prop :=
  ∀ after mem,
    if a ≠ [] ∧ a.length + 1 ≤ n then
      (s.sysGetargs after mem n).ret = 0 ∧
      (∀ i ≤ a.length, (s.sysGetargs after mem n).buf i = a.getD i 0) ∧
      (∀ i : Nat, n ≤ i → (s.sysGetargs after mem n).buf i = mem i) ∧
      ∀ after', (s.sysGetargs after' mem n).buf = (s.sysGetargs after mem n).buf
    else (s.sysGetargs after mem n).ret = -1

/-- There are no arguments; or they start with a NUL and do not fit; or they do not, they fit, and
the request is not longer than the `args` array. -/
def RoomOk (a : List UInt8) (n : Int) : Prop :=
  a = [] ∨ (a.getD 0 0 = 0 ∧ n ≤ a.length) ∨ (a.getD 0 0 ≠ 0 ∧ a.length + 1 ≤ n ∧ n ≤ 1024)

/-! ## The read -/

section Read

variable {s : Kernel} {line : List UInt8} {n : Int}

/-- The bytes that a read returns and the arguments that it keeps. -/
theorem delivers_readBytes (hw : ¬ s.ReadWaits) (h : HasLine s.kbd.bufKb line) (hn : 0 ≤ n)
    (mem : Nat → UInt8) :
    ∃ r, s.terminalReadTo mem n = some r ∧ Delivers mem n (readBytes line) (argsOf line) r := by
  unfold Kernel.terminalReadTo
  rw [terminalRead_line hw h hn]
  refine ⟨_, rfl, Int.min_comm _ _, fun i => ?_, fun i => rfl, rfl, ?_⟩
  · dsimp only
    rw [List.length_take]
    by_cases hi : i < min n.toNat (readBytes line).length
    · have hi' : (i : Int) < min ((readBytes line).length : Int) n := by omega
      rw [if_pos hi, if_pos hi', List.getD_eq_getElem?_getD, List.getD_eq_getElem?_getD,
        List.getElem?_take_of_lt (by omega)]
    · have hi' : ¬ (i : Int) < min ((readBytes line).length : Int) n := by omega
      rw [if_neg hi, if_neg hi']
  · simp [Kernel.finishRead, Kernel.setEnterFlag, Kernel.modTerm]

/-- A line with a command and arguments. -/
theorem readBytes_of_space {cmd args : List UInt8} (h : words line = cmd ++ ch ' ' :: args)
    (hc : ch ' ' ∉ cmd) : readBytes line = cmd ∧ argsOf line = args := by
  have hp : ∀ b ∈ cmd, decide (b ≠ ch ' ') = true := by
    intro b hb
    refine decide_eq_true fun hs => hc ?_
    rwa [← hs]
  have hmem : ch ' ' ∈ words line := by rw [h]; simp
  constructor
  · rw [readBytes, if_pos hmem, h, List.takeWhile_append_of_pos hp, List.takeWhile_cons_of_neg (by simp),
      List.append_nil]
  · rw [argsOf, h, List.dropWhile_append_of_pos hp, List.dropWhile_cons_of_neg (by simp)]
    rfl

/-- A line without arguments. -/
theorem readBytes_of_no_space (h : ch ' ' ∉ words line) :
    readBytes line = words line ++ [ch '\n'] ∧ argsOf line = [] := by
  constructor
  · rw [readBytes, if_neg h]
  · have hd : (words line).dropWhile (· ≠ ch ' ') = [] := by
      rw [List.dropWhile_eq_nil_iff]
      intro b hb
      refine decide_eq_true fun hs => h ?_
      rwa [← hs]
    rw [argsOf, hd]
    rfl

/-- **`terminal_read` splits the line.** For every buffer with a newline and every byte count, the
read delivers the command and keeps what follows the first space, or it delivers the line with its
newline and keeps nothing. -/
theorem terminal_read_splits (hw : ¬ s.ReadWaits) (h : HasLine s.kbd.bufKb line) (hn : 0 ≤ n)
    (mem : Nat → UInt8) :
    ∃ r, s.terminalReadTo mem n = some r ∧
      (∀ cmd args, words line = cmd ++ ch ' ' :: args → ch ' ' ∉ cmd → Delivers mem n cmd args r) ∧
      (ch ' ' ∉ words line → Delivers mem n (words line ++ [ch '\n']) [] r) := by
  obtain ⟨r, hr, hd⟩ := delivers_readBytes hw h hn mem
  refine ⟨r, hr, fun cmd args hl hc => ?_, fun hl => ?_⟩
  · obtain ⟨htext, hargs⟩ := readBytes_of_space hl hc
    rwa [htext, hargs] at hd
  · obtain ⟨htext, hargs⟩ := readBytes_of_no_space hl
    rwa [htext, hargs] at hd

/-- `ls a` is typed on terminal 2 of the small machine, whose shell reads it. -/
theorem terminal_read_splits_sample :
    ∃ s, kernel.run (boot sampleBoot)
        (sampleLaunches ++ sampleKeys [0x26, 0x1F, 0x39, 0x1E, 0x1C]) = some s ∧
      ∃ r, s.terminalReadTo (fun _ => 0) 128 = some r ∧
        Delivers (fun _ => 0) 128 (lit ['l', 's']) (lit ['a']) r := by
  have hv : (kernel.run (boot sampleBoot)
      (sampleLaunches ++ sampleKeys [0x26, 0x1F, 0x39, 0x1E, 0x1C])).map (fun s =>
        (decide s.ReadWaits, s.kbd.bufKb.toList)) =
      some (false, lit ['l', 's', ' ', 'a'] ++ ch '\n' :: List.replicate 123 0) := by
    decide +kernel
  obtain ⟨s, hs, hv⟩ := Option.map_eq_some_iff.mp hv
  obtain ⟨hw, hl⟩ := Prod.mk.inj hv
  obtain ⟨r, hr, hsplit, -⟩ := terminal_read_splits (n := 128) (of_decide_eq_false hw)
    ⟨by decide, _, hl⟩ (by decide) fun _ => 0
  exact ⟨s, hs, r, hr, hsplit (lit ['l', 's']) (lit ['a']) (by decide) (by decide)⟩

end Read

/-! ## The request for the arguments -/

section Getargs

variable {s s' : Kernel} {a line : List UInt8} {n : Int}

/-- The stored arguments stay until the next line is read. -/
theorem storeargs_run {es : List Event} (h : kernel.Along (fun u e => ¬ u.readsLine e) s es)
    (hr : kernel.run s es = some s') : s'.storeargs = s.storeargs := by
  refine Lts.run_inv (M := kernel) (I := fun u => u.storeargs = s.storeargs)
    (G := fun u e => ¬ u.readsLine e) ?_ rfl h hr
  intro u e u' hu hg hs
  rw [storeargs_step hs, if_neg hg]
  exact hu

/-- What a request that finds arguments leaves in the caller's buffer. -/
theorem sysGetargs_buf (h : s.storeargs = Buf.ofList a) (h0 : a.getD 0 0 ≠ 0)
    (after mem : Nat → UInt8) (n : Int) (i : Nat) :
    (s.sysGetargs after mem n).buf i =
      if i < u32 n then
        if i < 1024 then (terminalGetargs s.storeargs).getD i else after (i - 1024)
      else mem i := by
  unfold Kernel.sysGetargs
  dsimp only
  rw [getargs_getD h (by omega), if_neg h0]

theorem u32_of_range (h0 : 0 ≤ n) (hn : n < 2147483648) : (u32 n : Int) = n := by
  unfold u32
  omega

/-- The whole string comes back for a request that has room for it and stays in `args`. -/
theorem wholeOrFails_of_room (h : s.storeargs = Buf.ofList a) (hlen : a.length ≤ 127)
    (h0 : a.getD 0 0 ≠ 0) (hlo : a.length + 1 ≤ n) (hhi : n ≤ 1024) : WholeOrFails s a n := by
  have hu : (u32 n : Int) = n := u32_of_range (by omega) (by omega)
  intro after mem
  have hne : a ≠ [] := by
    rintro rfl
    exact h0 rfl
  rw [if_pos ⟨hne, hlo⟩]
  obtain ⟨hret, hbuf⟩ := sysGetargs_some after mem n h h0
  refine ⟨hret, fun i hi => hbuf i (by omega) (by omega), fun i hi => ?_, fun after' => ?_⟩
  · rw [sysGetargs_buf h h0, if_neg (by omega)]
  · funext i
    rw [sysGetargs_buf h h0, sysGetargs_buf h h0]
    by_cases hi : i < u32 n
    · rw [if_pos hi, if_pos hi, if_pos (by omega), if_pos (by omega)]
    · rw [if_neg hi, if_neg hi]

/-- A longer request copies what lies behind `args`. -/
theorem not_wholeOrFails_of_long (h : s.storeargs = Buf.ofList a) (h0 : a.getD 0 0 ≠ 0)
    (hfit : a.length + 1 ≤ n) (hlong : 1024 < n) (hn : n < 2147483648) : ¬ WholeOrFails s a n := by
  have hu : (u32 n : Int) = n := u32_of_range (by omega) hn
  intro hw
  have hne : a ≠ [] := by
    rintro rfl
    exact h0 rfl
  have hw := hw (fun _ => 0) fun _ => 0
  rw [if_pos ⟨hne, hfit⟩] at hw
  have hbyte := congrFun (hw.2.2.2 fun _ => 1) 1024
  have hcopied : ∀ after mem, (s.sysGetargs after mem n).buf 1024 = after 0 := by
    intro after mem
    rw [sysGetargs_buf h h0, if_pos (by omega), if_neg (by omega)]
  rw [hcopied, hcopied] at hbyte
  exact absurd hbyte (by decide)

/-- The requests for which `sys_getargs` keeps its promise. -/
theorem wholeOrFails_iff (h : s.storeargs = Buf.ofList a) (hlen : a.length ≤ 127) (hn0 : 0 ≤ n)
    (hn : n < 2147483648) : WholeOrFails s a n ↔ RoomOk a n := by
  by_cases hnil : a = []
  · refine iff_of_true (fun after mem => ?_) (.inl hnil)
    rw [if_neg (fun hc => hc.1 hnil)]
    exact sysGetargs_none h (by rw [hnil]; rfl)
  have hroom : RoomOk a n ↔
      (a.getD 0 0 = 0 ∧ n ≤ a.length) ∨ (a.getD 0 0 ≠ 0 ∧ a.length + 1 ≤ n ∧ n ≤ 1024) :=
    or_iff_right hnil
  rw [hroom]
  by_cases h0 : a.getD 0 0 = 0
  · -- the string looks empty, so the call fails
    rw [or_iff_left (fun hc => hc.1 h0), and_iff_right h0]
    constructor
    · intro hw
      by_contra hlt
      have hw := hw (fun _ => 0) fun _ => 0
      rw [if_pos ⟨hnil, by omega⟩, sysGetargs_none h h0] at hw
      exact absurd hw.1 (by decide)
    · intro hle after mem
      rw [if_neg (fun hc => by have := hc.2; omega)]
      exact sysGetargs_none h h0
  · rw [or_iff_right (fun hc => h0 hc.1), and_iff_right h0]
    constructor
    · intro hw
      have hfit : a.length + 1 ≤ n := by
        by_contra hlt
        have hw := hw (fun _ => 0) fun _ => 0
        rw [if_neg (fun hc => hlt hc.2), (sysGetargs_some _ _ _ h h0).1] at hw
        exact absurd hw (by decide)
      refine ⟨hfit, ?_⟩
      by_contra hlong
      exact not_wholeOrFails_of_long h h0 hfit (by omega) hn hw
    · rintro ⟨hlo, hhi⟩
      exact wholeOrFails_of_room h hlen h0 hlo hhi

/-- **`sys_getargs` gives the whole string or fails** exactly for the requests of `RoomOk`: after a
read of `line`, and until the next line is read. -/
theorem getargs_whole_iff {m ret : Int} {bytes : List UInt8} {s₁ s₂ : Kernel} {es : List Event}
    (hl : HasLine s.kbd.bufKb line) (hread : s.terminalRead m = some (ret, bytes, s₁))
    (hes : kernel.Along (fun u e => ¬ u.readsLine e) s₁ es) (hrun : kernel.run s₁ es = some s₂)
    (hn0 : 0 ≤ n) (hn : n < 2147483648) :
    WholeOrFails s₂ (argsOf line) n ↔ RoomOk (argsOf line) n := by
  obtain ⟨hw, hm, -⟩ := terminalRead_hasLine hread
  rw [terminalRead_line hw hl hm] at hread
  cases hread
  have hst : s₂.storeargs = Buf.ofList (argsOf line) :=
    (storeargs_run hes hrun).trans (storeargs_finishRead _)
  have hlen : (argsOf line).length ≤ 127 := by
    have h1 := argsOf_length_le line
    have h2 := hl.length_lt
    omega
  exact wholeOrFails_iff hst hlen hn0 hn

/-- `ls ab` is typed on terminal 2 of the small machine. -/
def typesArguments : List Event :=
  sampleLaunches ++ sampleKeys [0x26, 0x1F, 0x39, 0x1E, 0x30, 0x1C]

/-- The shell runs `ls`. -/
def runsLs : List Event := [.execUser (memory [(0, lit ['l', 's'])]) sampleExec]

/-- A request for three bytes gets `ab` and its NUL. -/
theorem getargs_whole_sample :
    ∃ s s₁ s₂, kernel.run (boot sampleBoot) typesArguments = some s ∧
      s.terminalRead 128 = some (2, lit ['l', 's'], s₁) ∧ kernel.run s₁ runsLs = some s₂ ∧
      WholeOrFails s₂ (lit ['a', 'b']) 3 := by
  have hv : (kernel.run (boot sampleBoot) typesArguments).bind (fun s =>
      (s.terminalRead 128).map fun r => (s.kbd.bufKb.toList, r.1, r.2.1, (kernel.run r.2.2 runsLs).isSome,
        decide (kernel.Along (fun u e => ¬ u.readsLine e) r.2.2 runsLs))) =
      some (lit ['l', 's', ' ', 'a', 'b'] ++ ch '\n' :: List.replicate 122 0, 2, lit ['l', 's'], true,
        true) := by
    decide +kernel
  obtain ⟨s, hs, hv⟩ := Option.bind_eq_some_iff.mp hv
  obtain ⟨⟨ret, bytes, s₁⟩, hread, hv⟩ := Option.map_eq_some_iff.mp hv
  simp only [Prod.mk.injEq] at hv
  obtain ⟨hl, rfl, rfl, hrun, hes⟩ := hv
  obtain ⟨s₂, hs₂⟩ := Option.isSome_iff_exists.mp hrun
  refine ⟨s, s₁, s₂, hs, hread, hs₂, ?_⟩
  exact (getargs_whole_iff ⟨by decide, _, hl⟩ hread (of_decide_eq_true hes) hs₂ (by decide)
    (by decide)).mpr (.inr (.inr (by decide)))

/-- A request for one byte is answered with 0 and a part of the string. -/
theorem getargs_cuts_arguments :
    ∃ s s₁ s₂, kernel.run (boot sampleBoot) typesArguments = some s ∧
      s.terminalRead 128 = some (2, lit ['l', 's'], s₁) ∧ kernel.run s₁ runsLs = some s₂ ∧
      (s₂.sysGetargs (fun _ => 0) (fun _ => 0xFF) 1).ret = 0 ∧
      (s₂.sysGetargs (fun _ => 0) (fun _ => 0xFF) 1).buf 0 = ch 'a' ∧
      (s₂.sysGetargs (fun _ => 0) (fun _ => 0xFF) 1).buf 1 = 0xFF ∧
      ¬ WholeOrFails s₂ (lit ['a', 'b']) 1 := by
  have hv : (kernel.run (boot sampleBoot) typesArguments).bind (fun s =>
      (s.terminalRead 128).bind fun r => (kernel.run r.2.2 runsLs).map fun s₂ =>
        let g := s₂.sysGetargs (fun _ => 0) (fun _ => 0xFF) 1
        (r.1, r.2.1, g.ret, g.buf 0, g.buf 1)) =
      some (2, lit ['l', 's'], 0, ch 'a', 0xFF) := by
    decide +kernel
  obtain ⟨s, hs, hv⟩ := Option.bind_eq_some_iff.mp hv
  obtain ⟨⟨ret, bytes, s₁⟩, hread, hv⟩ := Option.bind_eq_some_iff.mp hv
  obtain ⟨s₂, hs₂, hv⟩ := Option.map_eq_some_iff.mp hv
  simp only [Prod.mk.injEq] at hv
  obtain ⟨rfl, rfl, hret, h0, h1⟩ := hv
  refine ⟨s, s₁, s₂, hs, hread, hs₂, hret, h0, h1, fun hw => ?_⟩
  have hfail := hw (fun _ => 0) fun _ => 0xFF
  rw [if_neg (by decide)] at hfail
  exact absurd (hret.symm.trans hfail) (by decide)

end Getargs

end Mp3
