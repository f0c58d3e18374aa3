import X86Os.Boot

/-!
# Detecting memory

The loader asks the firmware for the entries of its memory map, one call for each entry, and
reports the usable regions to the kernel. With an entry the firmware returns the value that asks for
the next one, and zero with the last; zero asks for the first entry. The loader leaves its loop at a
zero, but not when the entry is one to be ignored.
-/

namespace X86Os

/-! ## The firmware -/

/-- `SMAP_entry_t`. -/
structure SmapEntry where
  baseL : ℕ
  baseH : ℕ
  lengthL : ℕ
  lengthH : ℕ
  type : ℕ
  acpi : ℕ

/-- An entry of the memory map and its length. -/
structure E820Entry extends SmapEntry where
  bytes : ℤ

/-- The registers EAX, ECX and EBX after `int 0x15`, and the buffer. -/
structure E820Reply where
  signature : ℕ
  bytes : ℤ
  contId : ℕ
  entry : SmapEntry

def smapSignature : ℕ := 0x534D4150

/-- The attributes follow the first twenty bytes; of those that are missing the old bytes stay. -/
def SmapEntry.receive (buf : SmapEntry) (e : E820Entry) : SmapEntry :=
  let base := 2 ^ (8 * min (e.bytes - 20).toNat 4)
  { e.toSmapEntry with acpi := e.acpi % base + buf.acpi / base * base }

/-- `int 0x15` with EAX = 0xE820 enumerates the entries; `token i` in EBX asks for the entry `i`. -/
structure Enumerates (int15 : ℕ → SmapEntry → E820Reply) (entries : List E820Entry)
    (token : ℕ → ℕ) : Prop where
  start : token 0 = 0
  token_ne : ∀ i, 0 < i → i < entries.length → token i ≠ 0
  reply : ∀ i e, entries[i]? = some e → ∀ buf, int15 (token i) buf =
    ⟨smapSignature, e.bytes, if i + 1 < entries.length then token (i + 1) else 0, buf.receive e⟩
  empty : entries = [] → ∀ buf, (int15 0 buf).signature ≠ smapSignature

/-- A firmware for which the value that asks for an entry is its index. -/
def mapFirmware (entries : List E820Entry) (ebx : ℕ) (buf : SmapEntry) : E820Reply :=
  match entries[ebx]? with
  | some e =>
    ⟨smapSignature, e.bytes, if ebx + 1 < entries.length then ebx + 1 else 0, buf.receive e⟩
  | none => ⟨0, 0, 0, buf⟩

theorem mapFirmware_enumerates (entries : List E820Entry) :
    Enumerates (mapFirmware entries) entries id where
  start := rfl
  token_ne _ hi _ := hi.ne'
  reply i e he buf := by
    show mapFirmware entries i buf = _
    rw [mapFirmware, he]
    rfl
  empty hnil buf := by
    rw [hnil]
    exact Nat.zero_ne_add_one _

/-! ## The loader -/

def bootRamRegionMax : ℕ := 10

/-- `boot_info_t`. -/
structure LoaderInfo where
  ramRegionCfg : ℕ → RamRegion
  ramRegionCount : ℕ

/-- What the kernel reads of it. -/
def LoaderInfo.bootInfo (info : LoaderInfo) : BootInfo where
  ramRegions := (List.range info.ramRegionCount).map info.ramRegionCfg

def LoaderInfo.push (info : LoaderInfo) (entry : SmapEntry) : LoaderInfo where
  ramRegionCfg :=
    Function.update info.ramRegionCfg info.ramRegionCount ⟨entry.baseL, entry.lengthL⟩
  ramRegionCount := info.ramRegionCount + 1

/-- The loop of `detect_memory`; `n` calls are left. -/
def detectLoop (int15 : ℕ → SmapEntry → E820Reply) :
    ℕ → ℕ → SmapEntry → LoaderInfo → LoaderInfo
  | 0, _, _, info => info
  | n + 1, contId, buf, info =>
    let r := int15 contId buf
    if r.signature ≠ smapSignature then info
    else if 20 < r.bytes ∧ r.entry.acpi &&& 0x0001 = 0 then
      detectLoop int15 n r.contId r.entry info
    else
      let info := if r.entry.type = 1 then info.push r.entry else info
      if r.contId = 0 then info else detectLoop int15 n r.contId r.entry info

def detectMemory (int15 : ℕ → SmapEntry → E820Reply) (buf : SmapEntry) (info : LoaderInfo) :
    LoaderInfo :=
  detectLoop int15 bootRamRegionMax 0 buf { info with ramRegionCount := 0 }

/-! ## Usable entries -/

namespace E820Entry

/-- The entry has attributes, and they say that it is to be ignored. -/
def Ignored (e : E820Entry) : Prop := 20 < e.bytes ∧ e.acpi &&& 0x0001 = 0

instance (e : E820Entry) : Decidable e.Ignored := inferInstanceAs (Decidable (_ ∧ _))

def Usable (e : E820Entry) : Prop := e.type = 1 ∧ ¬ e.Ignored

instance (e : E820Entry) : Decidable e.Usable := inferInstanceAs (Decidable (_ ∧ _))

def region (e : E820Entry) : RamRegion := ⟨e.baseL, e.lengthL⟩

end E820Entry

def usableRegions (entries : List E820Entry) : List RamRegion :=
  (entries.filter (·.Usable)).map E820Entry.region

/-- The usable entries among those that the loader has room for, in order and each once. -/
structure ListsOnce (entries : List E820Entry) (info : LoaderInfo) : Prop where
  regions : info.bootInfo.ramRegions = usableRegions (entries.take bootRamRegionMax)
  count : info.ramRegionCount = (usableRegions (entries.take bootRamRegionMax)).length
  total : totalMemSize info.bootInfo =
    u32 ((usableRegions (entries.take bootRamRegionMax)).map RamRegion.size).sum

variable {int15 : ℕ → SmapEntry → E820Reply} {entries rest : List E820Entry} {token : ℕ → ℕ}
variable {e : E820Entry} {buf : SmapEntry} {info : LoaderInfo} {n i : ℕ}

/-- The bit that is tested belongs to the entry whenever it is tested. -/
theorem SmapEntry.receive_ignored :
    (20 < e.bytes ∧ (buf.receive e).acpi &&& 0x0001 = 0) ↔ e.Ignored := by
  refine and_congr_right fun hbytes => ?_
  obtain ⟨k, hk⟩ : ∃ k, 8 * min (e.bytes - 20).toNat 4 = k + 1 :=
    ⟨8 * min (e.bytes - 20).toNat 4 - 1, by omega⟩
  show (e.acpi % 2 ^ (8 * min (e.bytes - 20).toNat 4) + buf.acpi /
    2 ^ (8 * min (e.bytes - 20).toNat 4) * 2 ^ (8 * min (e.bytes - 20).toNat 4)) &&& 1 = 0 ↔ _
  rw [hk, Nat.and_one_is_mod, Nat.and_one_is_mod, Nat.pow_succ, ← Nat.mul_assoc,
    Nat.add_mul_mod_self_right, Nat.mod_mul_left_mod]

theorem LoaderInfo.push_regions (info : LoaderInfo) (entry : SmapEntry) :
    (info.push entry).bootInfo.ramRegions =
      info.bootInfo.ramRegions ++ [⟨entry.baseL, entry.lengthL⟩] := by
  show (List.range (info.ramRegionCount + 1)).map _ = _
  rw [List.range_succ, List.map_append]
  congr 1
  · refine List.map_congr_left fun i hi => Function.update_of_ne ?_ _ _
    have := List.mem_range.mp hi
    omega
  · exact congrArg (fun r => [r]) (Function.update_self _ _ _)

/-! ## The entries that are asked for -/

/-- The entries of the next `n` calls when `rest` is what is left of the map. After an ignored last
entry the firmware starts over. -/
def asked (entries : List E820Entry) : ℕ → List E820Entry → List E820Entry
  | 0, _ => []
  | _ + 1, [] => []
  | n + 1, [e] => e :: if e.Ignored then asked entries n entries else []
  | n + 1, e :: e' :: rest => e :: asked entries n (e' :: rest)

theorem asked_zero (entries rest : List E820Entry) : asked entries 0 rest = [] := by
  cases rest <;> rfl

theorem asked_of_not_ignored (h : ∀ e ∈ rest.getLast?, ¬ e.Ignored) :
    asked entries n rest = rest.take n := by
  induction rest generalizing n with
  | nil => cases n <;> rfl
  | cons e rest ih =>
      cases n with
      | zero => rfl
      | succ n =>
          cases rest with
          | nil =>
              rw [asked, if_neg (h e rfl), List.take_succ_cons, List.take_nil]
          | cons e' rest =>
              rw [asked, ih (by rwa [List.getLast?_cons_cons] at h), List.take_succ_cons]

theorem asked_of_ignored (h : ∃ e ∈ rest.getLast?, e.Ignored) :
    asked entries n rest = rest.take n ++ asked entries (n - rest.length) entries := by
  induction rest generalizing n with
  | nil =>
      obtain ⟨e, he, -⟩ := h
      exact absurd he (Option.not_mem_none e)
  | cons e rest ih =>
      cases n with
      | zero => rw [asked_zero, Nat.zero_sub, asked_zero, List.take_zero, List.append_nil]
      | succ n =>
          cases rest with
          | nil =>
              obtain ⟨e', he, hignored⟩ := h
              obtain rfl : e = e' := Option.some.inj he
              rw [asked, if_pos hignored, List.take_succ_cons, List.take_nil]
              rfl
          | cons e' rest =>
              rw [asked, ih (by rwa [List.getLast?_cons_cons] at h), List.take_succ_cons,
                List.cons_append, List.length_cons, List.length_cons, List.length_cons,
                Nat.add_sub_add_right]

/-- A restarted enumeration asks for nothing behind its first `n` entries. -/
theorem mem_take_of_mem_asked (h : e ∈ asked entries n entries) : e ∈ entries.take n := by
  induction n using Nat.strong_induction_on with
  | _ n ih =>
      by_cases hlast : ∃ e ∈ entries.getLast?, e.Ignored
      · rw [asked_of_ignored hlast] at h
        rcases List.mem_append.mp h with hfirst | hagain
        · exact hfirst
        · have hpos : 0 < n := Nat.pos_of_ne_zero fun hn => by
            rw [hn, Nat.zero_sub, asked_zero] at hagain
            exact absurd hagain List.not_mem_nil
          have hlen : 0 < entries.length := List.length_pos_iff.mpr fun hnil => by
            obtain ⟨e', he', -⟩ := hlast
            rw [hnil] at he'
            exact absurd he' (Option.not_mem_none e')
          exact List.take_subset_take_left _ (Nat.sub_le _ _) (ih _ (by omega) hagain)
      · rwa [asked_of_not_ignored fun e he hig => hlast ⟨e, he, hig⟩] at h

/-! ## The loop -/

theorem usableRegions_append (l l' : List E820Entry) :
    usableRegions (l ++ l') = usableRegions l ++ usableRegions l' := by
  rw [usableRegions, List.filter_append, List.map_append]
  rfl

theorem usableRegions_cons (e : E820Entry) (l : List E820Entry) :
    usableRegions (e :: l) = (if e.Usable then [e.region] else []) ++ usableRegions l := by
  rw [usableRegions, List.filter_cons]
  by_cases he : e.Usable
  · rw [if_pos (by simpa using he), if_pos he]
    rfl
  · rw [if_neg (by simpa using he), if_neg he]
    rfl

theorem usableRegions_eq_nil {l : List E820Entry} :
    usableRegions l = [] ↔ ∀ e ∈ l, ¬ e.Usable := by
  rw [usableRegions, List.map_eq_nil_iff, List.filter_eq_nil_iff]
  simp

/-- One call. The end of the list is not noticed behind an ignored entry. -/
theorem detectLoop_succ (h : Enumerates int15 entries token) (hi : entries[i]? = some e) :
    detectLoop int15 (n + 1) (token i) buf info =
      let info' := if e.Usable then info.push e.toSmapEntry else info
      if i + 1 < entries.length then detectLoop int15 n (token (i + 1)) (buf.receive e) info'
      else if e.Ignored then detectLoop int15 n 0 (buf.receive e) info'
      else info' := by
  rw [detectLoop, h.reply i e hi buf]
  simp only [SmapEntry.receive_ignored, ne_eq, not_true_eq_false, if_false]
  have hentry : (if (buf.receive e).type = 1 then info.push (buf.receive e) else info) =
      if e.type = 1 then info.push e.toSmapEntry else info := rfl
  rw [hentry]
  by_cases hignored : e.Ignored
  · have hunusable : ¬ e.Usable := fun hu => hu.2 hignored
    rw [if_pos hignored, if_pos hignored, if_neg hunusable]
    split_ifs <;> rfl
  · have husable : e.Usable ↔ e.type = 1 := and_iff_left hignored
    simp only [if_neg hignored, husable]
    by_cases hlast : i + 1 < entries.length
    · rw [if_pos hlast, if_pos hlast, if_neg (h.token_ne (i + 1) (Nat.succ_pos i) hlast)]
    · rw [if_neg hlast, if_neg hlast, if_pos rfl]

theorem push_usable_regions (info : LoaderInfo) (e : E820Entry) :
    (if e.Usable then info.push e.toSmapEntry else info).bootInfo.ramRegions =
      info.bootInfo.ramRegions ++ if e.Usable then [e.region] else [] := by
  split_ifs
  · exact info.push_regions e.toSmapEntry
  · exact (List.append_nil _).symm

/-- The loop reports the usable ones of the entries that it asks for. -/
theorem detectLoop_regions (h : Enumerates int15 entries token) (hi : i < entries.length)
    (n : ℕ) (buf : SmapEntry) (info : LoaderInfo) :
    (detectLoop int15 n (token i) buf info).bootInfo.ramRegions =
      info.bootInfo.ramRegions ++ usableRegions (asked entries n (entries.drop i)) := by
  induction n generalizing i buf info with
  | zero =>
      rw [asked_zero, detectLoop]
      exact (List.append_nil _).symm
  | succ n ih =>
      have he : entries[i]? = some entries[i] := List.getElem?_eq_getElem hi
      rw [detectLoop_succ h he, List.drop_eq_getElem_cons hi]
      generalize entries[i] = e at he
      by_cases hlast : i + 1 < entries.length
      · simp only [if_pos hlast]
        rw [ih hlast _ _, push_usable_regions, List.drop_eq_getElem_cons hlast, asked,
          ← List.drop_eq_getElem_cons hlast, usableRegions_cons, List.append_assoc]
      · simp only [if_neg hlast]
        rw [List.drop_eq_nil_of_le (by omega), asked, usableRegions_cons, ← List.append_assoc,
          ← push_usable_regions]
        by_cases hignored : e.Ignored
        · rw [if_pos hignored, if_pos hignored, ← h.start, ih (by omega), List.drop_zero]
        · rw [if_neg hignored, if_neg hignored]
          exact (List.append_nil _).symm

theorem detectMemory_regions (h : Enumerates int15 entries token) (buf : SmapEntry)
    (info : LoaderInfo) : (detectMemory int15 buf info).bootInfo.ramRegions =
      usableRegions (asked entries bootRamRegionMax entries) := by
  rcases Nat.eq_zero_or_pos entries.length with hempty | hpos
  · have hnil := List.length_eq_zero_iff.mp hempty
    rw [detectMemory, bootRamRegionMax, detectLoop, if_pos (h.empty hnil buf), hnil]
    rfl
  · have hrun := detectLoop_regions h hpos bootRamRegionMax buf { info with ramRegionCount := 0 }
    rw [h.start, List.drop_zero] at hrun
    exact hrun

theorem LoaderInfo.push_room (info : LoaderInfo) (entry : SmapEntry) {k : ℕ}
    (hk : info.ramRegionCount < k) :
    (info.push entry).ramRegionCfg k = info.ramRegionCfg k :=
  Function.update_of_ne hk.ne' _ _

theorem detectLoop_room (int15 : ℕ → SmapEntry → E820Reply) (n contId : ℕ) (buf : SmapEntry)
    (info : LoaderInfo) :
    (detectLoop int15 n contId buf info).ramRegionCount ≤ info.ramRegionCount + n ∧
      ∀ k, info.ramRegionCount + n ≤ k →
        (detectLoop int15 n contId buf info).ramRegionCfg k = info.ramRegionCfg k := by
  induction n generalizing contId buf info with
  | zero => exact ⟨le_rfl, fun _ _ => rfl⟩
  | succ n ih =>
      rw [detectLoop]
      by_cases hsig : (int15 contId buf).signature ≠ smapSignature
      · rw [if_pos hsig]
        exact ⟨Nat.le_add_right _ _, fun _ _ => rfl⟩
      by_cases hskip : 20 < (int15 contId buf).bytes ∧ (int15 contId buf).entry.acpi &&& 0x0001 = 0
      · rw [if_neg hsig, if_pos hskip]
        obtain ⟨hcount, hcfg⟩ := ih (int15 contId buf).contId (int15 contId buf).entry info
        exact ⟨by omega, fun k hk => hcfg k (by omega)⟩
      rw [if_neg hsig, if_neg hskip]
      have hpush : ∀ info', info' = (if (int15 contId buf).entry.type = 1 then
          info.push (int15 contId buf).entry else info) →
          info'.ramRegionCount ≤ info.ramRegionCount + 1 ∧
            ∀ k, info.ramRegionCount < k → info'.ramRegionCfg k = info.ramRegionCfg k := by
        rintro info' rfl
        split_ifs
        · exact ⟨le_rfl, fun k hk => info.push_room _ hk⟩
        · exact ⟨Nat.le_succ _, fun _ _ => rfl⟩
      obtain ⟨hcount, hcfg⟩ := hpush _ rfl
      generalize (if (int15 contId buf).entry.type = 1 then
        info.push (int15 contId buf).entry else info) = info' at hcount hcfg
      by_cases hend : (int15 contId buf).contId = 0
      · simp only [if_pos hend]
        exact ⟨by omega, fun k hk => hcfg k (by omega)⟩
      · simp only [if_neg hend]
        obtain ⟨hcount', hcfg'⟩ := ih (int15 contId buf).contId (int15 contId buf).entry info'
        exact ⟨by omega, fun k hk => (hcfg' k (by omega)).trans (hcfg k (by omega))⟩

/-- Whatever the firmware answers, the regions have room in the table. -/
theorem detectMemory_room (int15 : ℕ → SmapEntry → E820Reply) (buf : SmapEntry)
    (info : LoaderInfo) : (detectMemory int15 buf info).ramRegionCount ≤ bootRamRegionMax ∧
      ∀ k, bootRamRegionMax ≤ k →
        (detectMemory int15 buf info).ramRegionCfg k = info.ramRegionCfg k := by
  obtain ⟨hcount, hcfg⟩ :=
    detectLoop_room int15 bootRamRegionMax 0 buf { info with ramRegionCount := 0 }
  exact ⟨by rwa [Nat.zero_add] at hcount, fun k hk => hcfg k (by rwa [Nat.zero_add])⟩

theorem LoaderInfo.count_eq (info : LoaderInfo) :
    info.ramRegionCount = info.bootInfo.ramRegions.length := by
  rw [bootInfo, List.length_map, List.length_range]

/-! ## What the kernel is told -/

/-- Each region is reported once, exactly if the last entry is not ignored, or the calls that are
left after it find no usable entry. -/
theorem detectMemory_once_iff (h : Enumerates int15 entries token) (buf : SmapEntry)
    (info : LoaderInfo) : ListsOnce entries (detectMemory int15 buf info) ↔
      (∀ e ∈ entries.getLast?, ¬ e.Ignored) ∨
        ∀ e ∈ entries.take (bootRamRegionMax - entries.length), ¬ e.Usable := by
  have hregions := detectMemory_regions h buf info
  have hlists : ListsOnce entries (detectMemory int15 buf info) ↔
      usableRegions (asked entries bootRamRegionMax entries) =
        usableRegions (entries.take bootRamRegionMax) := by
    refine ⟨fun hl => hregions.symm.trans hl.regions, fun heq => ?_⟩
    rw [heq] at hregions
    exact ⟨hregions, by rw [LoaderInfo.count_eq, hregions], by rw [totalMemSize, hregions]⟩
  rw [hlists]
  by_cases hlast : ∃ e ∈ entries.getLast?, e.Ignored
  · have hneg : ¬ ∀ e ∈ entries.getLast?, ¬ e.Ignored := by
      obtain ⟨e, he, hignored⟩ := hlast
      exact fun hall => hall e he hignored
    rw [asked_of_ignored hlast, usableRegions_append, List.append_right_eq_self,
      usableRegions_eq_nil, or_iff_right hneg]
    refine ⟨fun hnone e he => hnone e ?_, fun hnone e he => hnone e (mem_take_of_mem_asked he)⟩
    rw [asked_of_ignored hlast]
    exact List.mem_append_left _ he
  · have hnot : ∀ e ∈ entries.getLast?, ¬ e.Ignored := fun e he hig => hlast ⟨e, he, hig⟩
    rw [asked_of_not_ignored hnot]
    exact iff_of_true rfl (.inl hnot)

/-- A region of 127 megabytes and the reserved region of the firmware. -/
def plainMap : List E820Entry :=
  [⟨⟨0x100000, 0, 0x7F00000, 0, 1, 1⟩, 24⟩, ⟨⟨0xFFFC0000, 0, 0x40000, 0, 2, 0⟩, 20⟩]

def emptyInfo : LoaderInfo where
  ramRegionCfg _ := ⟨0, 0⟩
  ramRegionCount := 0

theorem detectMemory_once_iff_plain :
    ListsOnce plainMap (detectMemory (mapFirmware plainMap) ⟨0, 0, 0, 0, 0, 0⟩ emptyInfo) :=
  (detectMemory_once_iff (mapFirmware_enumerates plainMap) _ _).mpr
    (.inl fun e he => by
      obtain rfl : ⟨⟨0xFFFC0000, 0, 0x40000, 0, 2, 0⟩, 20⟩ = e := Option.some.inj he
      decide)

/-- The region of 127 megabytes, then an entry whose attributes say that it is to be ignored. -/
def ignoredMap : List E820Entry :=
  [⟨⟨0x100000, 0, 0x7F00000, 0, 1, 1⟩, 24⟩, ⟨⟨0, 0, 0, 0, 1, 0⟩, 24⟩]

/-- The region is reported five times. -/
theorem detectMemory_starts_over : Enumerates (mapFirmware ignoredMap) ignoredMap id ∧
    (detectMemory (mapFirmware ignoredMap) ⟨0, 0, 0, 0, 0, 0⟩ emptyInfo).ramRegionCount = 5 ∧
    ¬ ListsOnce ignoredMap
      (detectMemory (mapFirmware ignoredMap) ⟨0, 0, 0, 0, 0, 0⟩ emptyInfo) := by
  have hcount : (detectMemory (mapFirmware ignoredMap) ⟨0, 0, 0, 0, 0, 0⟩
      emptyInfo).ramRegionCount = 5 := by decide
  refine ⟨mapFirmware_enumerates ignoredMap, hcount, fun h => ?_⟩
  have honce := h.count
  rw [hcount] at honce
  exact absurd honce (by decide)

end X86Os
