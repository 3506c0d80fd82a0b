import Coreconf.Server
import Coreconf.Shell

set_option autoImplicit false

/- The command line of the password rotation, and what a shell makes of it. The password is
put between single quotes as it is, in a buffer of 512 bytes. -/
namespace Coreconf

/-- What `handle_put` gave to `system()`, in order. -/
def Outcome.commands (outcome : Outcome) : List (List UInt8) :=
  outcome.effects.filterMap fun
    | .system command => some command
    | _ => none

def rotateWords (newPassword : CString) : List (List UInt8) :=
  [text "/usr/local/bin/rotate_password.sh", text "iotadmin", newPassword.bytes]

/-- The bytes of a password that fit between the quotes of the command. -/
def PASSWORD_ROOM : Nat := 466

private theorem command_length : (text "/usr/local/bin/rotate_password.sh iotadmin '").length = 44 := by
  decide +kernel

private theorem quote_bytes : text "'" = [0x27] := by decide +kernel

/-- The shell stands in the quotes of the third word when it comes to the password. -/
private theorem command_run : Shell.run ⟨.bare, none, []⟩
    (text "/usr/local/bin/rotate_password.sh iotadmin '") =
      some ⟨.single, some [], [text "/usr/local/bin/rotate_password.sh", text "iotadmin"]⟩ := by
  decide +kernel

theorem rotateCommand_eq (newPassword : CString) :
    rotateCommand newPassword = text "/usr/local/bin/rotate_password.sh iotadmin '" ++
      (newPassword.bytes ++ [0x27]).take 467 := by
  rw [rotateCommand, quote_bytes, List.append_assoc, List.take_append, command_length,
    List.take_of_length_le (by rw [command_length]; omega)]

theorem words_rotateCommand (newPassword : CString) :
    Shell.words (rotateCommand newPassword) =
      (Shell.run ⟨.single, some [], [text "/usr/local/bin/rotate_password.sh", text "iotadmin"]⟩
        ((newPassword.bytes ++ [0x27]).take 467)).bind Shell.finish := by
  rw [Shell.words, rotateCommand_eq, Shell.run_append, command_run, Option.bind_some]

/-- A password without a quote that fits is the third word. -/
theorem rotateCommand_words {newPassword : CString} (unquoted : 0x27 ∉ newPassword.bytes)
    (fits : newPassword.bytes.length ≤ PASSWORD_ROOM) :
    Shell.words (rotateCommand newPassword) = some (rotateWords newPassword) := by
  have whole : (newPassword.bytes ++ [0x27]).take 467 = newPassword.bytes ++ [0x27] := by
    apply List.take_of_length_le
    rw [List.length_append, List.length_singleton]
    exact Nat.succ_le_succ fits
  rw [words_rotateCommand, whole, Shell.run_append, Shell.run_single unquoted, Option.bind_some]
  rfl

/-- Where the password has a quote, the one that is put after it is not the first. -/
private theorem quote_after {password inside outside : List UInt8} (unquoted : 0x27 ∉ inside)
    (quote : 0x27 ∈ password) (split : password ++ [0x27] = inside ++ 0x27 :: outside) :
    0x27 ∈ outside := by
  rcases List.eq_nil_or_concat outside with rfl | ⟨before, last, rfl⟩
  · exact absurd (List.append_cancel_right split ▸ quote) unquoted
  · have ends : password ++ [0x27] = (inside ++ 0x27 :: before) ++ [last] := by simpa using split
    rw [← (List.append_inj' ends rfl).2 |> List.head_eq_of_cons_eq]
    simp

/-- A quote in the password closes the quotes, and what follows cannot bring it back. -/
theorem rotateCommand_other {newPassword : CString}
    (broken : 0x27 ∈ newPassword.bytes ∨ PASSWORD_ROOM < newPassword.bytes.length) :
    Shell.words (rotateCommand newPassword) ≠ some (rotateWords newPassword) := by
  intro same
  rw [words_rotateCommand] at same
  obtain ⟨left, ran, finished⟩ := Option.bind_eq_some_iff.mp same
  by_cases closes : 0x27 ∈ (newPassword.bytes ++ [0x27]).take 467
  · obtain ⟨inside, outside, split, unquoted⟩ := List.eq_append_cons_of_mem closes
    rw [split, Shell.run_append, Shell.run_single unquoted, Option.bind_some, List.nil_append,
      Shell.run_cons, Shell.step, if_pos rfl, Option.bind_some] at ran
    obtain ⟨le, lt⟩ := Shell.finish_length rfl ran finished
    have lengths := congrArg List.length split
    simp only [List.length_take, List.length_append, List.length_cons, List.length_nil] at lengths
    simp only [rotateWords, Shell.State.size, Option.getD_some, List.map_cons, List.map_nil,
      List.sum_cons, List.sum_nil] at le lt
    rcases Nat.lt_or_ge PASSWORD_ROOM newPassword.bytes.length with long | fits
    · rw [PASSWORD_ROOM] at long
      omega
    · have quote := broken.resolve_right (Nat.not_lt.mpr fits)
      rw [PASSWORD_ROOM] at fits
      rw [List.take_of_length_le (by simp; omega)] at split
      have later := lt (quote_after unquoted quote split)
      omega
  · rw [Shell.run_single closes] at ran
    cases ran
    cases finished

theorem rotateCommand_words_iff (newPassword : CString) :
    Shell.words (rotateCommand newPassword) = some (rotateWords newPassword) ↔
      0x27 ∉ newPassword.bytes ∧ newPassword.bytes.length ≤ PASSWORD_ROOM := by
  constructor
  · intro same
    by_contra broken
    refine rotateCommand_other ?_ same
    by_cases quote : 0x27 ∈ newPassword.bytes
    · exact Or.inl quote
    · exact Or.inr (Nat.not_le.mp fun fits => broken ⟨quote, fits⟩)
  · exact fun ⟨unquoted, fits⟩ => rotateCommand_words unquoted fits

/-- A PUT whose SID 1735 is a string makes the shell run the script with that string exactly
where it has no single quote and fits the buffer. -/
theorem rotation_one_command_iff {fuel : Nat} {s : ServerState} {req : Request} {outcome : Outcome}
    {map : CoreconfHashMapT CoreconfValueT} {newPassword : CString}
    (format : getContentFormat req = CF_YANG_DATA_CBOR)
    (parsed : parsePutRequest fuel req.payload = some (some (.hashmap map)))
    (password : getCoreconfHashMap map SID_PASSWORD = some (.string newPassword))
    (handled : handlePut fuel s req = some outcome) :
    outcome.commands.map Shell.words = [some (rotateWords newPassword)] ↔
      0x27 ∉ newPassword.bytes ∧ newPassword.bytes.length ≤ PASSWORD_ROOM := by
  have given : req.payload ≠ [] := by
    intro empty
    rw [empty, parsePutRequest, parseRequest, if_pos rfl] at parsed
    cases parsed
  rw [handlePut, if_neg (not_not.mpr format), if_neg given, parsed, Option.map_some] at handled
  cases handled
  have commands : Outcome.commands ⟨⟨some (.hashmap map), true⟩, ⟨.changed, none, []⟩,
      rotatePassword map ++ [.pushNotificationMap req.payload, .notifyStreamObservers]⟩ =
      [rotateCommand newPassword] := by
    simp [Outcome.commands, rotatePassword, password]
  rw [commands, List.map_singleton, List.singleton_inj, rotateCommand_words_iff]

/-- A PUT of a datastore that holds the password alone. -/
def putPassword (newPassword : List UInt8) : Request :=
  ⟨some CF_YANG_DATA_CBOR,
    [0xA1, 0x19, 0x06, 0xC7, UInt8.ofNat (0x60 + newPassword.length)] ++ newPassword⟩

theorem rotation_one_command_plain :
    ∃ outcome, handlePut 5 ⟨none, false⟩ (putPassword [0x61, 0x20, 0x62]) = some outcome ∧
      outcome.commands.map Shell.words = [some (rotateWords (CString.ofBuffer [0x61, 0x20, 0x62]))] :=
  ⟨_, rfl, (@rotation_one_command_iff 5 ⟨none, false⟩ (putPassword [0x61, 0x20, 0x62]) _
    (mapOf [(SID_PASSWORD, .string (CString.ofBuffer [0x61, 0x20, 0x62]))]) _ rfl rfl rfl rfl).mpr (by decide)⟩

/-- The password `';reboot #` ends the script's command and begins one of its own. -/
theorem rotation_other_command :
    ∃ outcome, handlePut 5 ⟨none, false⟩
        (putPassword [0x27, 0x3B, 0x72, 0x65, 0x62, 0x6F, 0x6F, 0x74, 0x20, 0x23]) = some outcome ∧
      outcome.commands = [text "/usr/local/bin/rotate_password.sh iotadmin '';reboot #'"] ∧
      outcome.commands.map Shell.words = [none] := by
  refine ⟨_, rfl, ?_⟩
  decide +kernel

end Coreconf
