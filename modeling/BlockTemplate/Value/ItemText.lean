import BlockTemplate.Json.Escape
import BlockTemplate.Limits
import BlockTemplate.Text.Basic
import BlockTemplate.Value.Basic
import BlockTemplate.Value.Error

/-! Item stacks: when they are valid, and their text as a compound of named tags. -/
namespace BlockTemplate

def Enchantment.maxLevel : Nat := 32767

namespace Item

def isIdChar (c : Char) : Bool :=
  ('a' ≤ c && c ≤ 'z') || ('0' ≤ c && c ≤ '9') || ['_', ':', '.', '/', '-'].contains c

def checkEnchantments : List Enchantment → Except ValueError Unit
  | [] => .ok ()
  | e :: rest => do
    ValueError.requireText "enchantment id" e.id
    ValueError.requireNatRange "enchantment level" e.level 1 Enchantment.maxLevel
    checkEnchantments rest

/-- Raw tags come as a compound: braces around the entries, blanks around the braces. -/
def isCompound (nbt : String) : Bool :=
  let cs := Text.trimChars nbt.toList
  cs.head? = some '\x7b' && cs.getLast? = some '\x7d'

def checkNbt : Option String → Except ValueError Unit
  | none => .ok ()
  | some nbt =>
    if isCompound nbt then .ok ()
    else .error (.malformed "item nbt" "expected a compound tag wrapped in braces")

/-- Material, count, lore, enchantments and raw tags, in this order. -/
def check (limits : Limits) (i : Item) : Except ValueError Unit := do
  ValueError.requireText "item material" i.material
  match i.material.toList.find? (!isIdChar ·) with
  | some bad =>
    throw (.malformed "item material"
      ("unexpected character '" ++ bad.toString ++ "' in '" ++ i.material ++ "'"))
  | none => pure ()
  ValueError.requireNatRange "item count" i.count 1 (min limits.maxStackSize largestStack)
  if limits.maxLoreLines < i.lore.length then
    throw (.tooMany "item lore" i.lore.length limits.maxLoreLines)
  checkEnchantments i.enchantments
  checkNbt i.nbt

def namespaced (id : String) : List Char :=
  if id.toList.contains ':' then id.toList else "minecraft:".toList ++ id.toList

def tagChar (c : Char) : List Char :=
  if c = '\\' then ['\\', '\\'] else if c = '\x27' then ['\\', '\x27'] else [c]

/-- A text as the platform stores names and lore: a JSON text inside single quotes. -/
def textComponent (limits : Limits) (s : String) : List Char :=
  let cs := if limits.translateColors then Text.translateChars s.toList else s.toList
  let json := '"' :: (Json.escape cs ++ ['"'])
  '\x27' :: (json.flatMap tagChar ++ ['\x27'])

def commaSeparated : List (List Char) → List Char
  | [] => []
  | [a] => a
  | a :: rest => a ++ ',' :: commaSeparated rest

def braced (cs : List Char) : List Char := '\x7b' :: (cs ++ ['\x7d'])
def bracketed (cs : List Char) : List Char := '[' :: (cs ++ [']'])
def digits (n : Nat) : List Char := Nat.toDigits 10 n

def enchantmentTag (e : Enchantment) : List Char :=
  braced ("id:\"".toList ++ namespaced e.id ++ "\",lvl:".toList ++ digits e.level ++ ['s'])

def displayTags (limits : Limits) (i : Item) : List (List Char) :=
  (match i.name with
    | none => []
    | some name => ["Name:".toList ++ textComponent limits name]) ++
  (if i.lore.isEmpty then []
    else ["Lore:".toList ++ bracketed (commaSeparated (i.lore.map (textComponent limits)))])

def rawTags (nbt : String) : List Char :=
  Text.trimChars ((Text.trimChars nbt.toList).drop 1).dropLast

def tags (limits : Limits) (i : Item) : List (List Char) :=
  (if i.damage = 0 then [] else ["Damage:".toList ++ digits i.damage]) ++
  (if i.unbreakable then ["Unbreakable:1b".toList] else []) ++
  (if i.enchantments.isEmpty then []
    else ["Enchantments:".toList ++
      bracketed (commaSeparated (i.enchantments.map enchantmentTag))]) ++
  (if (displayTags limits i).isEmpty then []
    else ["display:".toList ++ braced (commaSeparated (displayTags limits i))]) ++
  (match i.nbt with
    | none => []
    | some nbt => if (rawTags nbt).isEmpty then [] else [rawTags nbt])

def textChars (limits : Limits) (i : Item) : List Char :=
  braced ("id:\"".toList ++ namespaced i.material ++ "\",Count:".toList ++ digits i.count ++
    ['b'] ++
    (if (tags limits i).isEmpty then []
      else ",tag:".toList ++ braced (commaSeparated (tags limits i))))

def tagText (limits : Limits) (i : Item) : String := String.ofList (textChars limits i)

end Item
end BlockTemplate
