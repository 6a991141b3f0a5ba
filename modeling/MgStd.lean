import MgStd.Lib.Prog
import MgStd.Lib.Heap
import MgStd.Lib.Order
import MgStd.Lib.BinTree
import MgStd.Lib.SearchTree
import MgStd.Lib.Links
import MgStd.Lib.Rotation
import MgStd.Lib.OrderedTree
import MgStd.Lib.Chain
import MgStd.Lib.Runs
import MgStd.Lib.Keyed
import MgStd.Lib.Ring
import MgStd.Lib.BackChain
import MgStd.Lib.Rearrange
import MgStd.Lib.Blocks
import MgStd.Lib.Bytes
import MgStd.Lib.Stdio
import MgStd.RbTree.Code
import MgStd.RbTree.Rotate
import MgStd.RbTree.Colors
import MgStd.RbTree.InsertFixup
import MgStd.RbTree.Insert
import MgStd.RbTree.RemoveFixup
import MgStd.RbTree.Remove
import MgStd.AvlTree.Code
import MgStd.AvlTree.Rotate
import MgStd.AvlTree.Balance
import MgStd.AvlTree.Insert
import MgStd.SplayTree.Code
import MgStd.SplayTree.Search
import MgStd.SplayTree.Splay
import MgStd.SplayTree.Insert
import MgStd.SplayTree.Remove
import MgStd.Bstree.Code
import MgStd.Bstree.Insert
import MgStd.Bstree.Delete
import MgStd.Bstree.Visit
import MgStd.MainLoop.Code
import MgStd.MainLoop.Lists
import MgStd.MainLoop.Registration
import MgStd.MainLoop.Machine
import MgStd.MainLoop.Removal
import MgStd.MainLoop.Lifetime
import MgStd.MainLoop.Destroy
import MgStd.MainLoop.Dispatch
import MgStd.MainLoop.Backends
import MgStd.MainLoop.Atomicity
import MgStd.HashTable.Code
import MgStd.HashTable.Map
import MgStd.HashTable.Calls
import MgStd.HashTable.Routing
import MgStd.HashTable.Update
import MgStd.Bitmap.Code
import MgStd.Bitmap.Bits
import MgStd.Bitmap.Scan
import MgStd.Bitmap.Allocator
import MgStd.Mglist.Code
import MgStd.Mglist.Rings
import MgStd.Mglist.Refine
import MgStd.Mglist.Cut
import MgStd.Mglist.Safe
import MgStd.Mghlist.Code
import MgStd.Mghlist.Chains
import MgStd.Mghlist.Refine
import MgStd.FastSort.Code
import MgStd.FastSort.Sort
import MgStd.FastSort.Range
import MgStd.Stack.Default
import MgStd.Stack.Code
import MgStd.Stack.Refine
import MgStd.Md5.Code
import MgStd.Md5.Count
import MgStd.Md5.Stream
import MgStd.Sha.Words
import MgStd.Sha.Code
import MgStd.Sha.Standard
import MgStd.Sha.Rounds
import MgStd.Sha.Stream
import MgStd.Sha.Digest
import MgStd.Base64.Code
import MgStd.Base64.Encode
import MgStd.Base64.Decode
import MgStd.Crc32.Code
import MgStd.Files.Code
import MgStd.Files.Digest
import MgStd.Crc32.Serial
import MgStd.Md5.Hmac
import MgStd.Bitmap.Complete
import MgStd.Lib.Descent
import MgStd.Lib.Crc
import MgStd.Lib.OnesComplement
import MgStd.Lib.PrimePowers
import MgStd.Crc32.Burst
import MgStd.Base64.Text
import MgStd.Base64.Access
import MgStd.Base64.Sizes
import MgStd.Icmp.Code
import MgStd.Icmp.Checksum
import MgStd.Icmp.Ping
import MgStd.Curl.Timer
import MgStd.Rsa.Code
import MgStd.Rsa.RoundTrip
import MgStd.FrameShare.Code
import MgStd.FrameShare.Lifecycle
import MgStd.AvlTree.Height
import MgStd.RbTree.Height
import MgStd.SplayTree.TopDown
import MgStd.Murmur.Code
import MgStd.Murmur.Blocks
import MgStd.Zip.Checksum
import MgStd.Zip.Encryption
import MgStd.Zip.Entry
import MgStd.Zip.Stored
import MgStd.Zip.Encrypted
import MgStd.Lib.BitString
import MgStd.Zip.BitWriter
import MgStd.Zip.BitStream
import MgStd.Inflate.Tables
import MgStd.Inflate.Huft
import MgStd.Inflate.Code
import MgStd.Inflate.Bits
import MgStd.Lib.SlidingWindow
import MgStd.Inflate.Window
import MgStd.Lib.Lz
import MgStd.Inflate.Coding
import MgStd.Inflate.Copy
import MgStd.Inflate.Fast
import MgStd.Inflate.Codes
import MgStd.Inflate.Stream
import MgStd.Inflate.Blocks
import MgStd.Inflate.Calls
import MgStd.Inflate.Fixed
import MgStd.Zip.Deflated
import MgStd.Zip.StaticTrees
import MgStd.Zip.RoundTrip
